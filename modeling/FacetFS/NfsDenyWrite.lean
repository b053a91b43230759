import FacetFS.NfsDelegations
import FacetFS.NfsServing
import FacetFS.NfsWorld

/-! # Denied writes

An open state that denies writing keeps the file at its path as it is, as far as other owners and
special stateids are concerned: a WRITE is stopped by its stateid or by the check for anonymous
access. A SETATTR through a special stateid and the attributes of an OPEN reach the size of the
file without such a check. -/
namespace NfsDenyWrite

open EventSystem NfsSeqid GroupIndex NfsStore NfsOps NfsRename NfsDisk NfsData NfsWorld NfsOutcomes
open NfsConsistency NfsStoreChange
open NfsDelegations (weakens_of_moves)
open NfsExclusion (Request step)
open NfsInterleaving (openRefused openInstall_tables downgradeInstall_cases regranted)
open NfsServing (step_evolves rename_evolves new_consistent)
open NfsTableInvariant (shareConflict_false)
open Function (update update_of_ne update_self)

/-- The size that the create attributes give to the target. -/
def sets (c : OpenCall) : Option ℕ :=
  match c.args.attrs with
  | .ok (some n) =>
    if c.args.openType = openCreate ∧ (n = 0 ∨ c.apply = nfs4OK ∨ c.sized = true) then some n
    else none
  | _ => none

def Opens (d : Disk) (plan : OpenPlan) (m : OpenMode) (fault : Option Failure) : Prop :=
  plan.needOpen = true → ∃ d', openNow d plan.target m fault = .ok d'

/-- An OPEN passes its checks and its FileSystem calls set the size of the target. -/
structure Sizing (w : World) (fh : Option Path) (o : OwnerRef) (c : OpenCall) (plan : OpenPlan)
    (n : ℕ) : Prop where
  target : openTarget fh c.args (w.openEnv fh c) = .ok plan.target
  checked : openCheck w.store.toTables o plan.target c.args = .ok plan
  recalled : (openRecall w.store w.clock plan c.args).1 = nfs4OK
  opened : Opens w.disk plan (w.openMode fh c) c.fault
  sets : sets c = some n

/-- No two owners of which one writes and the other denies it meet on a path. -/
def WriteExclusive (t : Tables) : Prop :=
  ∀ j ∈ t.opens, ∀ k ∈ t.opens, (t.openState j).path = (t.openState k).path →
    (t.openState j).owner ≠ (t.openState k).owner → (t.openState j).access &&& shareWrite ≠ 0 →
    (t.openState k).deny &&& shareWrite = 0

/-- No state that is moved meets one at its new path that it conflicts with over writing. -/
def WriteClear (t : Tables) (src dst : Path) : Prop :=
  ∀ j ∈ t.opens, ∀ k ∈ t.opens, movedPath src dst (t.openState j).path = some (t.openState k).path →
    (t.openState j).owner ≠ (t.openState k).owner →
    ((t.openState j).access &&& shareWrite ≠ 0 → (t.openState k).deny &&& shareWrite = 0) ∧
      ((t.openState k).access &&& shareWrite ≠ 0 → (t.openState j).deny &&& shareWrite = 0)

/-- A RENAME that succeeds brings no writer to a path whose writing is denied, and no denial to
the path of a writer. -/
def ClearRename (w : World) : Event → Prop
  | .rename saved fh oldName newName fault change =>
    (w.rename saved fh oldName newName fault change).1.status = nfs4OK →
      ∀ s f o n, saved = some s → fh = some f → oldName = .ok o → newName = .ok n →
        s ++ [o] = f ++ [n] ∨ WriteClear w.store.toTables (s ++ [o]) (f ++ [n])
  | _ => True

variable {m : OpenMode} {q : Path}

section Sizes

theorem setSize_spec (d : Disk) (p : Path) (n : Option ℕ) :
    (setSize d p n).tree = d.tree ∧ (setSize d p n).files = d.files ∧
      (setSize d p n).object = d.object := by
  cases n with
  | none => exact ⟨rfl, rfl, rfl⟩
  | some n =>
    simp only [setSize, Disk.truncate]
    split <;> exact ⟨rfl, rfl, rfl⟩

variable {d d' : Disk} {target : Path} {size : Option ℕ}

/-- What the FileSystem calls of an OPEN do: the files there are stay, and the target gets a new
size if one is set. -/
structure Called (d d' : Disk) (target : Path) (size : Option ℕ) : Prop where
  objects : d.objects ≤ d'.objects
  files : d.files ≤ d'.files
  object : ∀ f, f < d.files → d'.object f = d.object f
  kept : ∀ q x, d.fileAt q = some x → d'.fileAt q = some x
  names : ∀ q x, d'.fileAt q = some x → d.fileAt q = some x ∨ d.objects ≤ x
  data : ∀ q x, d.fileAt q = some x → d'.data x =
    if q = target then size.elim (d.data x) (resize · (d.data x)) else d.data x

theorem Called.refl (d : Disk) (target : Path) : Called d d target none :=
  ⟨le_refl _, le_refl _, fun _ _ => rfl, fun _ _ h => h, fun _ _ h => .inl h,
    fun _ _ _ => by simp⟩

theorem openAt_called (h : d.openAt target m = .ok d') :
    Called d d' target (if m.trunc then some 0 else none) := by
  cases hx : d.fileAt target with
  | none =>
    obtain ⟨-, ho, hf, hobj, hdata, hnames⟩ := openAt_new d hx h
    have hne : ∀ q x, d.fileAt q = some x → q ≠ target := by
      rintro q x hq rfl
      rw [hx] at hq
      cases hq
    refine ⟨by omega, by omega, fun f hlt => ?_, fun q x hq => ?_, fun q x hq => ?_,
      fun q x hq => ?_⟩
    · rw [hobj, update_of_ne (Nat.ne_of_lt hlt)]
    · rw [hnames, if_neg (hne q x hq)]
      exact hq
    · rw [hnames] at hq
      split at hq
      · exact .inr (le_of_eq (Option.some.inj hq))
      · exact .inl hq
    · rw [if_neg (hne q x hq), hdata]
      exact update_of_ne (Nat.ne_of_lt (d.named.bound q x hq)) _ _
  | some y =>
    rw [openAt_old d hx h]
    have hobj : ∀ f, f < d.files → update d.object d.files y f = d.object f :=
      fun f hlt => update_of_ne (Nat.ne_of_lt hlt) _ _
    cases m.trunc with
    | false => exact ⟨le_refl _, Nat.le_succ _, hobj, fun _ _ h => h, fun _ _ h => .inl h,
        fun _ _ _ => by simp [Disk.attach]⟩
    | true =>
      refine ⟨le_refl _, Nat.le_succ _, hobj, fun _ _ h => h, fun _ _ h => .inl h,
        fun q x hq => ?_⟩
      change update d.data y [] x = _
      split
      · rename_i hqt
        rw [hqt, hx] at hq
        cases hq
        simp [resize]
      rename_i hqt
      refine update_of_ne ?_ _ _
      rintro rfl
      exact hqt (d.named.single q target x hq hx)

theorem Called.setSize (h : Called d d' target none) (n : Option ℕ) :
    Called d (setSize d' target n) target n := by
  cases n with
  | none => exact h
  | some n =>
    have hdata : ∀ q x, d.fileAt q = some x → d'.data x = d.data x := by simpa using h.data
    simp only [NfsWorld.setSize, Disk.truncate]
    split
    · rename_i y hy
      refine ⟨h.objects, h.files, h.object, h.kept, h.names, fun q x hq => ?_⟩
      change update d'.data y _ x = _
      split
      · rename_i hqt
        have hyx := h.kept q x hq
        rw [hqt, hy] at hyx
        cases hyx
        simp [hdata q y hq]
      rename_i hqt
      rw [update_of_ne, hdata q x hq]
      rintro rfl
      exact hqt (d'.named.single q target x (h.kept q x hq) hy)
    rename_i hnone
    refine ⟨h.objects, h.files, h.object, h.kept, h.names, fun q x hq => ?_⟩
    rw [if_neg, hdata q x hq]
    rintro rfl
    rw [h.kept q x hq] at hnone
    cases hnone

theorem Called.removeAll (h : Called d d' target size)
    (hfree : ∀ q x, d.fileAt q = some x → ¬ target <+: q) :
    Called d (d'.removeAll target) target size := by
  have ht := Thins.removeAll (d := d') target
  refine ⟨?_, le_trans h.files ht.files, fun f hf => ?_, fun q x hq => ?_,
    fun q x hq => h.names q x (ht.names q x hq), fun q x hq => ?_⟩
  · rw [ht.objects]
    exact h.objects
  · rw [ht.object f (lt_of_lt_of_le hf h.files)]
    exact h.object f hf
  · have hkept := h.kept q x hq
    unfold Disk.removeAll
    split
    · rename_i hne
      change FileTree.fileAt (d'.tree.removeAll target hne) q = some x
      rw [FileTree.fileAt_removeAll, if_neg (hfree q x hq)]
      exact hkept
    · exact hkept
  · rw [← h.data q x hq]
    unfold Disk.removeAll
    split <;> rfl

theorem not_below_missing {x} (hd : d.lstat target = none)
    (hq : d.fileAt q = some x) : ¬ target <+: q := by
  rintro ⟨r, rfl⟩
  have hnode : d.tree.node target = none := by simpa [Disk.lstat] using hd
  have hsome : (d.tree.node (target ++ r)).isSome = true := by
    unfold Disk.fileAt FileTree.fileAt at hq
    cases hn : d.tree.node (target ++ r) with
    | none =>
      rw [hn] at hq
      cases hq
    | some n => rfl
  cases r with
  | nil =>
    rw [List.append_nil, hnode] at hsome
    cases hsome
  | cons a r =>
    have hdir := d.tree.dirAt_of_append (List.cons_ne_nil a r) hsome
    rw [hnode] at hdir
    cases hdir

end Sizes

variable {plan : OpenPlan}

section Calls

variable {w : World} {c : OpenCall}

theorem truncating_sets (ht : c.args.truncating = true) :
    c.args.openType = openCreate ∧ sets c = some 0 ∧ c.size = none := by
  have hsize : c.size = none := by simp [OpenCall.size, ht]
  simp only [OpenArgs.truncating, Bool.and_eq_true, beq_iff_eq] at ht
  obtain ⟨hc, ha⟩ := ht
  refine ⟨hc, ?_, hsize⟩
  unfold sets
  split at ha
  · rename_i hattrs
    simp [hattrs, hc]
  · cases ha

theorem sets_of_create (hc : c.args.openType = openCreate) (ht : c.args.truncating = false) :
    sets c = if c.apply = nfs4OK ∨ c.sized = true then c.size else none := by
  simp only [OpenCall.size, ht, Bool.false_eq_true, if_false]
  simp only [OpenArgs.truncating, hc, beq_self_eq_true, Bool.true_and] at ht
  unfold sets
  cases ha : c.args.attrs with
  | error e => simp
  | ok size =>
    cases size with
    | none => simp
    | some n =>
      rw [ha] at ht
      have hn : n ≠ 0 := by
        rintro rfl
        cases ht
      simp [hc, hn]

theorem sets_of_open (hc : c.args.openType ≠ openCreate) : sets c = none := by
  unfold sets
  split
  · exact if_neg fun h => hc h.1
  · rfl

variable {existed : Bool}

theorem undo_called {d target size} (h : Called d w.disk target size)
    (hfree : existed = false → ∀ q x, d.fileAt q = some x → ¬ target <+: q) :
    Called d (w.undo target existed c).disk target size := by
  unfold World.undo
  split
  · rename_i hc
    exact h.removeAll (hfree hc.1)
  · exact h

theorem applyCalls_called {opened}
    (h : Called w.disk (opened.getD w.disk) plan.target
      (if c.args.truncating then some 0 else none))
    (hfree : existed = false → ∀ q x, w.disk.fileAt q = some x → ¬ plan.target <+: q) :
    Called w.disk (w.applyCalls plan c existed opened).2.disk plan.target (sets c) := by
  unfold World.applyCalls
  by_cases hc : c.args.openType = openCreate
  · cases ht : c.args.truncating with
    | true =>
      obtain ⟨-, hsets, hsize⟩ := truncating_sets ht
      rw [ht] at h
      simp only [hsets, hsize, setSize, ite_self]
      split
      · exact undo_called h hfree
      · simp only [remember_disk]
        exact h
    | false =>
      rw [ht] at h
      rw [sets_of_create hc ht]
      simp only
      split
      · rename_i hfail
        refine undo_called ?_ hfree
        cases hs : c.sized with
        | false => simpa [hfail.2] using h
        | true => simpa using h.setSize c.size
      rename_i hok
      have ha : c.apply = nfs4OK := by
        by_contra hne
        exact hok ⟨hc, hne⟩
      simp only [remember_disk, if_pos (Or.inl ha)]
      exact h.setSize c.size
  have ht : c.args.truncating = false := by
    cases ht : c.args.truncating with
    | false => rfl
    | true => exact absurd (truncating_sets ht).1 hc
  rw [ht] at h
  rw [sets_of_open hc, if_neg fun hn => hc hn.1, if_neg hc]
  exact h

/-- What the calls of an OPEN do to the disk, by whether the file can be opened. -/
def Outcome (d d' : Disk) (plan : OpenPlan) (m : OpenMode) (c : OpenCall) : Prop :=
  (Opens d plan m c.fault → Called d d' plan.target (sets c)) ∧
    (¬ Opens d plan m c.fault → Called d d' plan.target none)

theorem openCalls_called (w : World) (c : OpenCall) (plan : OpenPlan) (m : OpenMode)
    (existed : Bool) (hm : m.trunc = c.args.truncating)
    (hn : c.args.truncating = true → plan.needOpen = true)
    (hfree : existed = false → ∀ q x, w.disk.fileAt q = some x → ¬ plan.target <+: q) :
    Outcome w.disk (w.openCalls plan c m existed).2.disk plan m c := by
  unfold World.openCalls Outcome Opens
  cases hopen : plan.needOpen with
  | false =>
    have ht : c.args.truncating = false := by
      cases ht : c.args.truncating with
      | false => rfl
      | true =>
        rw [hn ht] at hopen
        cases hopen
    refine ⟨fun _ => applyCalls_called ?_ hfree, fun h => absurd nofun h⟩
    rw [ht]
    exact .refl _ _
  | true =>
    cases hd : openNow w.disk plan.target m c.fault with
    | error e => exact ⟨fun h => absurd (h rfl) (by simp), fun _ => .refl _ _⟩
    | ok d =>
      refine ⟨fun _ => applyCalls_called ?_ hfree, fun h => absurd (fun _ => ⟨d, rfl⟩) h⟩
      rw [← hm]
      exact openAt_called (openNow_ok hd)

theorem openCalls_tables (w : World) (plan : OpenPlan) (c : OpenCall) (m : OpenMode)
    (existed : Bool) : (w.openCalls plan c m existed).2.store.toTables = w.store.toTables := by
  unfold World.openCalls
  split
  · rfl
  rename_i opened _
  have h := congrArg Prod.snd (applyCalls_store w plan c existed opened)
  simp only at h
  rw [h]
  split <;> rfl

/-- A file is on the object at its path, if that object still has a name. -/
def FileOn (d : Disk) (f : ℕ) (p : Path) : Prop :=
  f < d.files ∧ d.object f < d.objects ∧ ∀ q, d.fileAt q = some (d.object f) → q = p

theorem FileOn.of_fileAt {d f p} (hf : f < d.files)
    (h : d.fileAt p = some (d.object f)) : FileOn d f p :=
  ⟨hf, d.named.bound p _ h, fun q hq => d.named.single q p _ hq h⟩

theorem FileOn.thins {d d' f p} (h : FileOn d f p) (ht : Thins d d') : FileOn d' f p := by
  obtain ⟨hf, ho, hn⟩ := h
  have he := ht.object f hf
  refine ⟨lt_of_lt_of_le hf ht.files, ?_, fun q hq => hn q ?_⟩
  · rw [he, ht.objects]
    exact ho
  · rw [← he]
    exact ht.names q _ hq

theorem FileOn.called {d d' f p target size}
    (h : FileOn d f p) (hc : Called d d' target size) : FileOn d' f p := by
  obtain ⟨hf, ho, hn⟩ := h
  have he := hc.object f hf
  refine ⟨lt_of_lt_of_le hf hc.files, ?_, fun q hq => hn q ?_⟩
  · rw [he]
    exact lt_of_lt_of_le ho hc.objects
  · rw [he] at hq
    rcases hc.names q _ hq with hold | hnew
    · exact hold
    · exact absurd ho (Nat.not_lt.2 hnew)

theorem openAt_fileOn {d d' : Disk} {p : Path} (h : d.openAt p m = .ok d') :
    d.files < d'.files ∧ d'.fileAt p = some (d'.object d.files) := by
  cases hx : d.fileAt p with
  | none =>
    obtain ⟨-, -, hf, hobj, -, hnames⟩ := openAt_new d hx h
    rw [hnames, if_pos rfl, hobj, update_self, hf]
    exact ⟨Nat.lt_succ_self _, rfl⟩
  | some x =>
    have hobj : update d.object d.files x d.files = x := update_self _ _ _
    rw [openAt_old d hx h]
    cases m.trunc with
    | false => exact ⟨Nat.lt_succ_self _, hx.trans (congrArg some hobj.symm)⟩
    | true => exact ⟨Nat.lt_succ_self _, hx.trans (congrArg some hobj.symm)⟩

theorem openCalls_opened {g w'} (h : w.openCalls plan c m existed = (.ok (some g), w')) :
    g.handle < w'.disk.files ∧ w'.disk.fileAt plan.target = some (w'.disk.object g.handle) := by
  unfold World.openCalls at h
  cases hopen : plan.needOpen with
  | false =>
    rw [hopen] at h
    simp only [Bool.false_eq_true, if_false, World.applyCalls, Option.map_none] at h
    split at h
    · cases h
    · split at h <;> cases h
  | true =>
    rw [hopen] at h
    cases hd : openNow w.disk plan.target m c.fault with
    | error e =>
      rw [hd] at h
      cases h
    | ok d =>
      rw [hd] at h
      have hat := openAt_fileOn (openNow_ok hd)
      simp only [if_true, Except.map, World.applyCalls, Option.map_some, Option.getD_some] at h
      split at h
      · cases h
      split at h
      · cases h
        obtain ⟨htree, hfiles, hobject⟩ := setSize_spec d plan.target c.size
        simp only [remember_disk, World.setDisk, Disk.fileAt, htree, hfiles, hobject]
        exact hat
      · cases h
        exact hat

theorem openCalls_fileOn {g w'} (h : w.openCalls plan c m existed = (.ok (some g), w')) :
    FileOn w'.disk g.handle plan.target :=
  .of_fileAt (openCalls_opened h).1 (openCalls_opened h).2

end Calls

section Opening

variable (w : World) (fh : Option Path) (o : OwnerRef) (c : OpenCall)

theorem openCheck_needOpen {t target a}
    (h : openCheck t o target a = .ok plan) (ht : a.truncating = true) : plan.needOpen = true := by
  unfold openCheck at h
  simp only at h
  split at h
  · cases h
  · cases h
    simp [ht]

theorem openWith_calls (ht : openTarget fh c.args (w.openEnv fh c) = .ok plan.target)
    (hc : openCheck w.store.toTables o plan.target c.args = .ok plan) (st : Store) :
    Outcome w.disk (((w.consult fh c).setStore st).openCalls plan c (w.openMode fh c)
      (w.disk.lstat (openPath fh c.args)).isSome).2.disk plan (w.openMode fh c) c := by
  have hdisk : ((w.consult fh c).setStore st).disk = w.disk := consult_disk w fh c
  have hcalls := openCalls_called ((w.consult fh c).setStore st) c plan (w.openMode fh c)
    (w.disk.lstat (openPath fh c.args)).isSome rfl (openCheck_needOpen o hc)
  rw [hdisk] at hcalls
  apply hcalls
  intro hno q x hq
  refine not_below_missing ?_ hq
  rw [(openTarget_ok ht).1]
  simpa using hno

/-- The size is set that the condition names, if it names one. -/
def CalledBy (d d' : Disk) (target : Path) (P : ℕ → Prop) : Prop :=
  ∃ size, Called d d' target size ∧ ∀ n, size = some n ↔ P n

theorem CalledBy.refl {d target P} (h : ∀ n, ¬ P n) : CalledBy d d target P :=
  ⟨none, .refl _ _, fun n => ⟨nofun, fun hn => absurd hn (h n)⟩⟩

theorem openWith_called : CalledBy w.disk (w.openWith fh o c).2.disk (openPath fh c.args)
    fun n => ∃ plan, Sizing w fh o c plan n := by
  have hfinal : ∀ plan, openTarget fh c.args (w.openEnv fh c) = .ok plan.target →
      openCheck w.store.toTables o plan.target c.args = .ok plan →
      (openRecall w.store w.clock plan c.args).1 = nfs4OK → ∀ d,
      Outcome w.disk d plan (w.openMode fh c) c →
      CalledBy w.disk d (openPath fh c.args) fun n => ∃ plan, Sizing w fh o c plan n := by
    intro plan ht hc hr d hd
    rw [← (openTarget_ok ht).1]
    by_cases ho : Opens w.disk plan (w.openMode fh c) c.fault
    · refine ⟨sets c, hd.1 ho, fun n => ⟨fun hn => ⟨plan, ht, hc, hr, ho, hn⟩, ?_⟩⟩
      rintro ⟨plan', hs⟩
      exact hs.sets
    refine ⟨none, hd.2 ho, fun n => ⟨nofun, ?_⟩⟩
    rintro ⟨plan', hs⟩
    have htarget := hs.target
    rw [ht] at htarget
    have hcheck := hs.checked
    rw [← Except.ok.inj htarget, hc] at hcheck
    cases hcheck
    exact absurd hs.opened ho
  have hreach := openWith_reach w fh o c
  generalize w.openWith fh o c = r at hreach
  cases hreach with
  | stopped e st _ refused =>
    change CalledBy w.disk (w.consult fh c).disk _ _
    rw [consult_disk]
    refine .refl ?_
    rintro n ⟨plan, hs⟩
    exact refused plan hs.target hs.checked hs.recalled
  | called plan w' e target checked recalled calls =>
    have hd := openWith_calls w fh o c target checked (openRecall w.store w.clock plan c.args).2
    rw [calls] at hd
    exact hfinal plan target checked recalled _ hd
  | installed plan w' f r target checked recalled calls =>
    have hd := openWith_calls w fh o c target checked (openRecall w.store w.clock plan c.args).2
    rw [calls] at hd
    exact hfinal plan target checked recalled _ hd

end Opening

section Tables

/-- The files of the open states are on the objects at their paths. -/
def FilesOn (t : Tables) (d : Disk) : Prop :=
  ∀ k ∈ t.opens, ∀ f, (t.openState k).file = some f →
    FileOn d f.handle (t.openState k).path

variable {t t' : Tables} {d : Disk}

/-- One open state is new or replaced. -/
structure Replaces (t t' : Tables) (i : ℕ) (s : OpenState) : Prop where
  opens : ∀ k ∈ t'.opens, k = i ∨ k ∈ t.opens
  openState : t'.openState = update t.openState i s

theorem FilesOn.replaces {i s} (h : FilesOn t d) (hr : Replaces t t' i s)
    (hs : ∀ f, s.file = some f → FileOn d f.handle s.path) : FilesOn t' d := by
  have hall := forall_update (g := t.openState)
    (fun _ s => ∀ f, s.file = some f → FileOn d f.handle s.path)
    (fun j hj hji => (hr.opens j hj).resolve_left hji) (fun _ => hs) h
  rwa [← hr.openState] at hall

theorem WriteExclusive.replaces {i s} (h : WriteExclusive t)
    (hr : Replaces t t' i s)
    (hs : ∀ j ∈ t.opens, j ≠ i → (t.openState j).path = s.path → (t.openState j).owner ≠ s.owner →
      ((t.openState j).access &&& shareWrite ≠ 0 → s.deny &&& shareWrite = 0) ∧
        (s.access &&& shareWrite ≠ 0 → (t.openState j).deny &&& shareWrite = 0)) :
    WriteExclusive t' := by
  have hpairs := forall_pairs_update (g := t.openState) (fun _ s _ s' => s.path = s'.path →
    s.owner ≠ s'.owner → s.access &&& shareWrite ≠ 0 → s'.deny &&& shareWrite = 0)
    (fun j hj hji => (hr.opens j hj).resolve_left hji) (fun _ _ ho => absurd rfl ho)
    (fun _ j hj hji => ⟨fun hp ho => (hs j hj hji hp.symm ho.symm).2,
      fun hp ho => (hs j hj hji hp ho).1⟩) h
  rwa [← hr.openState] at hpairs

theorem no_write_of_and_eq_zero {a b} (h : a &&& b = 0) (hb : b &&& shareWrite ≠ 0) :
    a &&& shareWrite = 0 := by
  have hbit : ∀ c : UInt32, (c &&& shareWrite).toNat = (c.toNat.testBit 1).toNat * 2 := by
    intro c
    rw [UInt32.toNat_and]
    exact Nat.and_two_pow c.toNat 1
  have htb : b.toNat.testBit 1 = true := by
    by_contra hne
    rw [Bool.not_eq_true] at hne
    apply hb
    apply UInt32.toNat_inj.1
    rw [hbit, hne]
    rfl
  apply UInt32.toNat_inj.1
  have hand := congrArg (fun c => c.toNat.testBit 1) h
  simp only [UInt32.toNat_and, Nat.testBit_and, htb, Bool.and_true] at hand
  rw [hbit, hand]
  rfl

end Tables

section Installing

variable {w : World} {fh : Option Path} {o : OwnerRef} {c : OpenCall}

theorem openInstall_replaces (st : Store) (now : ℕ) (plan : OpenPlan) (f : Option OpenFile)
    (hi : Indexed st.toTables) :
    (openInstall st now plan f).2.toTables = st.toTables ∨ ∃ i s, Replaces st.toTables (openInstall st now plan f).2.toTables i s ∧
      s.path = plan.target ∧ s.owner = plan.owner ∧ s.access = plan.access ∧ s.deny = plan.deny ∧
      (s.file = f ∨ ∃ k ∈ st.opens, (st.openState k).path = plan.target ∧
        s.file = (st.openState k).file) ∧
      st.toTables.shareConflict plan.target plan.owner plan.access plan.deny = false := by
  have hshare : openRefused st plan = false →
      st.toTables.shareConflict plan.target plan.owner plan.access plan.deny = false := by
    intro hr
    simp only [openRefused, Bool.or_eq_false_iff] at hr
    exact hr.1
  rcases openInstall_tables st plan now f with ⟨-, ht⟩ | ⟨hr, n, -, ⟨-, -, ht⟩ | ⟨k, hf, ht⟩⟩
  · exact .inl ht
  · rw [ht]
    exact .inr ⟨_, _, ⟨fun k hk => List.mem_cons.1 hk, rfl⟩, rfl, rfl, rfl, rfl, .inl rfl,
      hshare hr⟩
  have hk := (hi.index.mem plan.target k).1 (List.mem_of_find?_eq_some hf)
  rw [ht]
  refine .inr ⟨k, _, ⟨fun j hj => .inr hj, rfl⟩, hk.2, (hi.findOpen_some hf).2, rfl, rfl, ?_,
    hshare hr⟩
  cases f with
  | none => exact .inr ⟨k, hk.1, hk.2, rfl⟩
  | some g => exact .inl rfl

theorem openInstall_writers {st} (hi : Indexed st.toTables)
    (h : WriteExclusive st.toTables) (now : ℕ) (plan : OpenPlan) (f : Option OpenFile) :
    WriteExclusive (openInstall st now plan f).2.toTables := by
  rcases openInstall_replaces st now plan f hi with
    ht | ⟨i, s, hr, hp, hown, ha, hd, -, hshare⟩
  · rwa [ht]
  refine h.replaces hr fun j hj hji hjp hjo => ?_
  rw [hp] at hjp
  rw [hown] at hjo
  obtain ⟨hdeny, hacc⟩ := shareConflict_false hi.index hshare hj hjp hjo
  rw [ha, hd]
  refine ⟨no_write_of_and_eq_zero hacc, fun hw => ?_⟩
  rw [UInt32.and_comm] at hdeny
  exact no_write_of_and_eq_zero hdeny hw

theorem openInstall_files {st d} (hi : Indexed st.toTables) (h : FilesOn st.toTables d) (now : ℕ)
    (plan : OpenPlan) (f : Option OpenFile) (hf : ∀ g, f = some g → FileOn d g.handle plan.target) :
    FilesOn (openInstall st now plan f).2.toTables d := by
  rcases openInstall_replaces st now plan f hi with ht | ⟨i, s, hr, hp, -, -, -, hfile, -⟩
  · rwa [ht]
  refine h.replaces hr fun g hg => ?_
  rw [hp]
  rcases hfile with hfile | ⟨k, hk, hkp, hfile⟩
  · exact hf g (hfile ▸ hg)
  · rw [← hkp]
    exact h k hk g (hfile ▸ hg)

/-- The files are on the objects at their paths, and writers stay apart from denials. -/
structure Safe (t : Tables) (w : World) : Prop where
  files : FilesOn w.store.toTables w.disk
  writers : WriteExclusive t → WriteExclusive w.store.toTables

theorem Safe.of_tables {t w'} (hf : FilesOn t w'.disk) (ht : w'.store.toTables = t) :
    Safe t w' := by
  subst ht
  exact ⟨hf, id⟩

theorem Safe.sequenced {st body} (ht : st.toTables = w.store.toTables)
    (hf : FilesOn st.toTables w.disk) (hb : Safe st.toTables (body (w.setStore st)).2)
    (opnum seqid : UInt32) :
    Safe w.store.toTables ((w.setStore st).sequenced o opnum seqid body).2 := by
  obtain ⟨g, ⟨-, hw⟩ | ⟨-, -, hw⟩⟩ := sequenced_world (w.setStore st) o opnum seqid body
  · rw [hw, ← ht]
    exact ⟨hf, id⟩
  · rw [hw, ← ht]
    exact ⟨hb.files, hb.writers⟩

theorem openWith_safe (hi : Indexed w.store.toTables) (hf : FilesOn w.store.toTables w.disk) :
    Safe w.store.toTables (w.openWith fh o c).2 := by
  obtain ⟨size, hcalled, -⟩ := openWith_called w fh o c
  have hfiles : FilesOn w.store.toTables (w.openWith fh o c).2.disk :=
    fun k hk f hkf => (hf k hk f hkf).called hcalled
  have htables : ∀ {plan r w'}, ((w.consult fh c).setStore
      (openRecall w.store w.clock plan c.args).2).openCalls plan c (w.openMode fh c)
      (w.disk.lstat (openPath fh c.args)).isSome = (r, w') →
      w'.store.toTables = w.store.toTables := by
    intro plan r w' calls
    have ht := openCalls_tables ((w.consult fh c).setStore
      (openRecall w.store w.clock plan c.args).2) plan c (w.openMode fh c)
      (w.disk.lstat (openPath fh c.args)).isSome
    rw [calls] at ht
    exact ht.trans (openRecall_tables w.store w.clock plan c.args)
  have hreach := openWith_reach w fh o c
  generalize w.openWith fh o c = r at hreach hfiles
  cases hreach with
  | stopped e st store _ =>
    refine .of_tables hfiles ?_
    rcases store with rfl | ⟨plan, rfl⟩
    · rfl
    · exact openRecall_tables w.store w.clock plan c.args
  | called plan w' e target checked recalled calls => exact .of_tables hfiles (htables calls)
  | installed plan w' f r target checked recalled calls =>
    rw [← htables calls] at hi hfiles ⊢
    refine ⟨openInstall_files hi hfiles w'.clock plan f fun g hg => ?_,
      fun h => openInstall_writers hi h w'.clock plan f⟩
    subst hg
    have hon := openCalls_fileOn calls
    exact hon

theorem openFile_safe (fh : Option Path) (c : OpenCall) (hi : Indexed w.store.toTables)
    (hf : FilesOn w.store.toTables w.disk) : Safe w.store.toTables (w.openFile fh c).2 := by
  have ht := (ownerIn_renews w.store w.clock c.args.clientID false c.args.owner).tables
  change (w.store.ownerOf w.clock c.args.clientID c.args.owner).2.toTables = _ at ht
  unfold World.openFile
  rcases he : w.store.ownerOf w.clock c.args.clientID c.args.owner with ⟨e | o, st⟩
  · rw [he] at ht
    exact .of_tables hf ht
  rw [he] at ht
  have hst : st.toTables = w.store.toTables := ht
  rw [← hst] at hi hf
  refine .sequenced hst hf ?_ opOpen c.args.seqid
  exact openWith_safe (w := w.setStore st) hi hf

theorem downgradeInstall_safe {a g} (hf : FilesOn w.store.toTables w.disk)
    (hok : a.access &&& (w.store.openState a.other.count).access = a.access ∧
      a.deny &&& (w.store.openState a.other.count).deny = a.deny)
    (hg : ∀ f, g = some f → FileOn w.disk f.handle (w.store.openState a.other.count).path)
    (now : ℕ) : Safe w.store.toTables (w.setStore (downgradeInstall w.store now a g).2) := by
  rcases downgradeInstall_cases w.store now a g with ⟨r, he⟩ | ⟨hlive, he⟩
  · rw [he]
    exact .of_tables hf rfl
  have hr : Replaces w.store.toTables (downgradeInstall w.store now a g).2.toTables
      a.other.count (regranted (w.store.openState a.other.count) a.access a.deny a.flag g) := by
    rw [he]
    exact ⟨fun k hk => .inr hk, rfl⟩
  constructor
  · refine hf.replaces hr fun f hfile => ?_
    cases g with
    | none => exact hf _ hlive f hfile
    | some g => exact hg f hfile
  intro h
  refine h.replaces hr fun j hj hji hp hown => ⟨fun hw => ?_, fun hw => ?_⟩
  · have hdeny := h j hj _ hlive hp hown hw
    change a.deny &&& shareWrite = 0
    rw [← hok.2, UInt32.and_assoc, hdeny]
    simp
  · refine h _ hlive j hj hp.symm hown.symm fun hzero => hw ?_
    change a.access &&& shareWrite = 0
    rw [← hok.1, UInt32.and_assoc, hzero]
    simp

theorem openDowngradeBody_safe (a : DowngradeArgs) (fault : Option Failure)
    (hf : FilesOn w.store.toTables w.disk) :
    Safe w.store.toTables (w.openDowngradeBody fh a fault).2 := by
  have hthins := (openDowngradeBody_spares w fh a fault).disk
  have htables := (downgradeCheck_renews w.store w.clock fh a).tables
  unfold World.openDowngradeBody at hthins ⊢
  rcases hcheck : downgradeCheck w.store w.clock fh a with ⟨e | needOpen, st⟩
  · rw [hcheck] at htables
    exact .of_tables hf htables
  rw [hcheck] at htables
  have ht : st.toTables = w.store.toTables := htables
  obtain ⟨hacc, hdeny, hpath⟩ := downgradeCheck_ok (congrArg Prod.fst hcheck)
  simp only [hcheck] at hthins ⊢
  rw [← ht] at hf hacc hdeny hpath ⊢
  cases needOpen with
  | false =>
    refine downgradeInstall_safe (w := w.setStore st) (g := none) hf ⟨hacc, hdeny⟩ ?_ w.clock
    exact fun _ hnone => nomatch hnone
  | true =>
    simp only [if_true] at hthins ⊢
    cases hd : openNow (w.setStore st).disk (fh.getD []) ⟨false, false, false⟩ fault with
    | error e => exact .of_tables hf rfl
    | ok d =>
      rw [hd] at hthins
      refine downgradeInstall_safe (w := (w.setStore st).setDisk d)
        (fun k hk f hkf => (hf k hk f hkf).thins hthins) ⟨hacc, hdeny⟩ (fun f hfile => ?_) w.clock
      cases hfile
      rw [hpath] at hd
      obtain ⟨hlt, hat⟩ := openAt_fileOn (openNow_ok hd)
      exact .of_fileAt hlt hat

theorem openDowngrade_safe (fh : Option Path) (a : DowngradeArgs) (fault : Option Failure)
    (hf : FilesOn w.store.toTables w.disk) :
    Safe w.store.toTables (w.openDowngrade fh a fault).2 := by
  have ht := (ownerForStateid_renews w.store w.clock a.other).tables
  unfold World.openDowngrade
  rcases he : w.store.ownerForStateid w.clock a.other with ⟨e | o, st⟩
  · rw [he] at ht
    exact .of_tables hf ht
  rw [he] at ht
  have hst : st.toTables = w.store.toTables := ht
  rw [← hst] at hf
  refine .sequenced hst hf ?_ opOpenDowngrade a.seqid
  exact openDowngradeBody_safe (w := w.setStore st) a fault hf

end Installing

section Settling

/-- The open and lock tables stay as they are, and so does consistency. -/
structure Settled (st st' : Store) : Prop where
  tables : st'.toTables = st.toTables
  consistent : Consistent st → Consistent st'

variable {st st₁ st₂ : Store} (w : World)

variable (fh : Option Path) (a : WriteArgs)

theorem Settled.refl (st : Store) : Settled st st := ⟨rfl, id⟩

theorem Settled.trans (h : Settled st st₁) (h' : Settled st₁ st₂) : Settled st st₂ :=
  ⟨h'.tables.trans h.tables, fun hc => h'.consistent (h.consistent hc)⟩

theorem Settled.recall (st : Store) (now : ℕ) (p : Path) (except : Option ClientID) :
    Settled st (st.recallDelegations now p except).2 :=
  ⟨st.recallDelegations_tables now p except, fun hc => hc.recallDelegations now p except⟩

theorem Settled.renews {now} (h : st₁ = st ∨ ∃ c, st₁ = st.renewClient c now) : Settled st st₁ := by
  rcases h with rfl | ⟨c, rfl⟩
  · exact .refl _
  · exact ⟨rfl, fun hc => hc.touched (Renews.renew st c now).touched⟩

theorem ioState_store (st : Store) (now : ℕ) (fh : Option Path) (lookup : Except NfsStat Kind)
    (seq : UInt32) (other : Other) (write : Bool) (file : Except NfsStat ℕ) :
    (ioState st now fh lookup seq other write file).2 =
      (ioResolve st now fh lookup seq other write).2 := by
  unfold ioState
  rcases ioResolve st now fh lookup seq other write with ⟨e | f, st₁⟩
  · rfl
  cases f with
  | none =>
    simp only
    split <;> rfl
  | some f => rfl

theorem writeWith_settled (x : WriteFaults) : Settled w.store (w.writeWith fh a x).2.store := by
  have hstore : (w.writeWith fh a x).2.store = (ioResolve w.store w.clock fh
      (w.disk.handleKind (fh.getD [])) a.seq a.other true).2 := by
    rw [← ioState_store w.store w.clock fh (w.disk.handleKind (fh.getD [])) a.seq a.other true
      ((openNow w.disk (fh.getD []) ⟨false, false, false⟩ x.fault).map fun _ => w.disk.files)]
    simp only [World.writeWith]
    split
    · rename_i h
      rw [h]
      rfl
    · rename_i h
      rw [h]
      rfl
    · rename_i h
      rw [h]
      rfl
  rw [hstore]
  exact .renews (ioResolve_renews w.store w.clock fh _ a.seq a.other true)

theorem write_settled (x : WriteFaults) : Settled w.store (w.write fh a x).2.store := by
  unfold World.write
  split
  · exact .refl _
  split
  · exact writeWith_settled w none a x
  rename_i p
  rcases hr : w.recallFor p a.other with ⟨status, v⟩
  obtain rfl := recallFor_world w hr
  have hrecall := Settled.recall w.store w.clock p (clientForStateid w.store a.other)
  simp only
  split
  · exact hrecall
  · exact hrecall.trans (writeWith_settled (w.setStore _) (some p) a x)

theorem setAttrWith_settled (p : Path) (a : SetAttrArgs) (apply : NfsStat) (sized : Bool) :
    Settled w.store (w.setAttrWith p a apply sized).2.store := by
  have hstore : (w.setAttrWith p a apply sized).2.store =
      (resolveIOStateid w.store w.clock a.seq a.other p).2 := by
    unfold World.setAttrWith
    rcases resolveIOStateid w.store w.clock a.seq a.other p with ⟨e | s, st⟩
    · rfl
    simp only
    split
    · rfl
    split
    · rfl
    · rfl
  rw [hstore]
  exact .renews (resolveIOStateid_renews w.store w.clock a.seq a.other p)

theorem setAttr_settled (a : SetAttrArgs) (apply : NfsStat) (sized : Bool) :
    Settled w.store (w.setAttr fh a apply sized).2.store := by
  unfold World.setAttr
  split
  · exact .refl _
  · exact .refl _
  rename_i p _
  split
  · exact .refl _
  split
  · rcases hr : w.recallFor p a.other with ⟨status, v⟩
    obtain rfl := recallFor_world w hr
    have hrecall := Settled.recall w.store w.clock p (clientForStateid w.store a.other)
    simp only
    split
    · exact hrecall
    · exact hrecall.trans (setAttrWith_settled (w.setStore _) p a apply sized)
  · exact setAttrWith_settled w p a apply sized

theorem remove_settled (name : Except Failure String)
    (fault : Option Failure) : Settled w.store (w.remove fh name fault).2.store := by
  unfold World.remove
  split
  · exact .refl _
  · exact .refl _
  split
  · exact .refl _
  split
  · exact .refl _
  rename_i dir _ _ _ _
  have hrecall : ∀ p, Settled w.store (w.store.recallDelegations w.clock p none).2 :=
    fun p => .recall w.store w.clock p none
  simp only [World.removeTarget]
  split
  · exact hrecall _
  split
  · exact hrecall _
  split
  · exact hrecall _
  · exact hrecall _

end Settling

section Renaming

variable {st : Store} {src dst : Path}

theorem renamePath_writers (hi : Indexed st.toTables) (hs : src ≠ []) (h₁ : ¬ src <+: dst)
    (h₂ : ¬ dst <+: src) (h : WriteExclusive st.toTables) :
    WriteExclusive (renamePath st src dst).toTables ↔ WriteClear st.toTables src dst := by
  have hpath := fun k (hk : k ∈ st.opens) => renamePath_path hi src dst hk
  have hsame : ∀ k, ((renamePath st src dst).openState k).owner = (st.openState k).owner ∧
      ((renamePath st src dst).openState k).access = (st.openState k).access ∧
      ((renamePath st src dst).openState k).deny = (st.openState k).deny := by
    intro k
    obtain ⟨p, hp⟩ := renamePath_openState st src dst k
    rw [hp]
    exact ⟨rfl, rfl, rfl⟩
  constructor
  · intro hafter j hj k hk hm hown
    have hk' : ((renamePath st src dst).openState k).path = (st.openState k).path := by
      rw [hpath k hk, movedPath_stays hs h₁ h₂ hm]
      rfl
    have hjk : ((renamePath st src dst).openState j).path =
        ((renamePath st src dst).openState k).path := by
      rw [hpath j hj, hm, hk']
      rfl
    have hw := hafter j hj k hk hjk
    have hw' := hafter k hk j hj hjk.symm
    simp only [(hsame j).1, (hsame k).1, (hsame j).2, (hsame k).2] at hw hw'
    exact ⟨hw hown, hw' hown.symm⟩
  intro hclear j hj k hk hp hown
  have hbefore : (st.openState j).owner ≠ (st.openState k).owner := by
    rwa [(hsame j).1, (hsame k).1] at hown
  rw [(hsame j).2.1, (hsame k).2.2]
  rw [hpath j hj, hpath k hk] at hp
  cases hmj : movedPath src dst (st.openState j).path with
  | none =>
    rw [hmj] at hp
    cases hmk : movedPath src dst (st.openState k).path with
    | none =>
      rw [hmk] at hp
      exact h j hj k hk hp hbefore
    | some q =>
      rw [hmk] at hp
      have hjq : (st.openState j).path = q := hp
      exact (hclear k hk j hj (hjq ▸ hmk) hbefore.symm).2
  | some q =>
    rw [hmj] at hp
    cases hmk : movedPath src dst (st.openState k).path with
    | none =>
      rw [hmk] at hp
      have hkq : q = (st.openState k).path := hp
      exact (hclear j hj k hk (hkq ▸ hmj) hbefore).1
    | some r =>
      rw [hmk] at hp
      obtain rfl : q = r := hp
      exact h j hj k hk (movedPath_injective hs hmk hmj) hbefore

theorem FileOn.rename {d f p} (h : FileOn d f p) (hs : src ≠ [])
    (h₁ : ¬ src <+: dst) (hd : dst ≠ []) (hdir : FileTree.dirAt (d.tree.node dst.dropLast) = true) :
    FileOn (d.rename src dst) f ((movedPath src dst p).getD p) := by
  obtain ⟨hf, ho, hn⟩ := h
  unfold Disk.rename
  rw [dif_pos ⟨hs, h₁, hd, hdir⟩]
  refine ⟨hf, ho, fun q hq => ?_⟩
  change FileTree.fileAt (d.tree.rename src dst hs h₁ hd hdir) q = some (d.object f) at hq
  rw [FileTree.fileAt_rename] at hq
  split at hq
  · rename_i hpre
    obtain ⟨r, rfl⟩ := hpre
    rw [List.drop_left] at hq
    rw [← hn _ hq, (movedPath_eq_some hs).2 ⟨r, rfl, rfl⟩]
    rfl
  split at hq
  · cases hq
  rename_i hsrc
  have hqp := hn q hq
  have hnone : movedPath src dst p = none := by
    by_contra hsome
    obtain ⟨q', hq'⟩ := Option.ne_none_iff_exists'.1 hsome
    obtain ⟨r, hr, -⟩ := (movedPath_eq_some hs).1 hq'
    exact hsrc ⟨r, by rw [hqp, hr]⟩
  rw [hnone]
  exact hqp

theorem dirAt_of_diskView {d fault change f}
    (h : (diskView d fault change).lstat f = .ok .directory) :
    FileTree.dirAt (d.tree.node f) = true := by
  simp only [diskView, Disk.lstat] at h
  cases hn : d.tree.node f with
  | none =>
    rw [hn] at h
    cases h
  | some n =>
    cases n with
    | dir a => rfl
    | file a x =>
      rw [hn] at h
      cases h

theorem rename_state {w} (saved fh : Option Path) (oldName newName : Except Failure String)
    (fault : Option FsError) (change : Path → UInt64 × UInt64) (hi : Indexed w.store.toTables)
    (hf : FilesOn w.store.toTables w.disk) :
    FilesOn (w.rename saved fh oldName newName fault change).2.store.toTables
        (w.rename saved fh oldName newName fault change).2.disk ∧
      (WriteExclusive w.store.toTables →
        (WriteExclusive (w.rename saved fh oldName newName fault change).2.store.toTables ↔
          ClearRename w (.rename saved fh oldName newName fault change))) := by
  by_cases hok : (w.rename saved fh oldName newName fault change).1.status = nfs4OK
  · have hstatus : (NfsRename.rename w.store w.clock (diskView w.disk fault change) saved fh oldName
        newName).1.status = nfs4OK := hok
    obtain ⟨s, f, o, n, rfl, rfl, rfl, rfl, hcase⟩ := rename_ok hstatus
    have hdir := dirAt_of_diskView (rename_ok_dir hstatus)
    have hdisk : (w.rename (some s) (some f) (.ok o) (.ok n) fault change).2.disk =
        w.disk.rename (s ++ [o]) (f ++ [n]) := if_pos hok
    have hclear : ClearRename w (.rename (some s) (some f) (.ok o) (.ok n) fault change) ↔
        s ++ [o] = f ++ [n] ∨ WriteClear w.store.toTables (s ++ [o]) (f ++ [n]) := by
      constructor
      · intro hc
        exact hc hok s f o n rfl rfl rfl rfl
      rintro hc - s' f' o' n' hs hf ho hn
      cases hs
      cases hf
      cases ho
      cases hn
      exact hc
    rw [hdisk, hclear]
    change FilesOn (NfsRename.rename _ _ _ _ _ _ _).2.toTables _ ∧
      (_ → (WriteExclusive (NfsRename.rename _ _ _ _ _ _ _).2.toTables ↔ _))
    rcases hcase with ⟨heq, hst⟩ | ⟨hne, h₁, h₂, st', ht, hst⟩
    · rw [hst, heq]
      constructor
      · unfold Disk.rename
        rw [dif_neg fun h => h.2.1 (List.prefix_refl _)]
        exact hf
      · exact fun h => iff_of_true h (.inl rfl)
    rw [hst]
    rw [← ht] at hi hf ⊢
    constructor
    · intro k hk g hg
      rw [renamePath_path hi _ _ hk]
      obtain ⟨p, hp⟩ := renamePath_openState st' (s ++ [o]) (f ++ [n]) k
      rw [hp] at hg
      refine (hf k hk g hg).rename (by simp) h₁ (by simp) ?_
      rw [List.dropLast_concat]
      exact hdir
    · intro h
      rw [renamePath_writers hi (by simp) h₁ h₂ h]
      exact ⟨.inr, fun hc => hc.resolve_left hne⟩
  have ht := rename_failed hok
  have hdisk : (w.rename saved fh oldName newName fault change).2.disk = w.disk := if_neg hok
  rw [hdisk]
  change FilesOn (NfsRename.rename _ _ _ _ _ _ _).2.toTables _ ∧
    (_ → (WriteExclusive (NfsRename.rename _ _ _ _ _ _ _).2.toTables ↔ _))
  rw [ht]
  exact ⟨hf, fun h => iff_of_true h fun h => absurd h hok⟩

end Renaming

section Steps

variable {w : World}

/-- What holds in every run. -/
structure Sound (w : World) : Prop where
  consistent : Consistent w.store
  files : FilesOn w.store.toTables w.disk

theorem Sound.indexed (h : Sound w) : Indexed w.store.toTables := h.consistent.tidy.indexed

theorem Sound.settled {w'} (h : Sound w) (hst : Settled w.store w'.store)
    (hd : Thins w.disk w'.disk) : Sound w' ∧
      (WriteExclusive w.store.toTables → WriteExclusive w'.store.toTables) := by
  refine ⟨⟨hst.consistent h.consistent, ?_⟩, fun hw => ?_⟩
  · rw [hst.tables]
    exact fun k hk f hf => (h.files k hk f hf).thins hd
  · rwa [hst.tables]

theorem next_sound (h : Sound w) (e : Event) : Sound (next w e) ∧
    (WriteExclusive w.store.toTables →
      (WriteExclusive (next w e).store.toTables ↔ ClearRename w e)) := by
  have hplain : Sound (next w e) ∧ (WriteExclusive w.store.toTables →
      WriteExclusive (next w e).store.toTables) → ClearRename w e →
      Sound (next w e) ∧ (WriteExclusive w.store.toTables →
        (WriteExclusive (next w e).store.toTables ↔ ClearRename w e)) :=
    fun hs hc => ⟨hs.1, fun hw => iff_of_true (hs.2 hw) hc⟩
  cases e with
  | tick d => exact hplain ⟨⟨h.consistent, h.files⟩, id⟩ trivial
  | request r =>
    refine hplain ?_ trivial
    simp only [next]
    split
    · rename_i hr
      have hweak := weakens_of_moves (step_moves w.store hr)
      refine ⟨⟨(step_evolves h.consistent r).consistent, fun k hk f hf => ?_⟩,
        fun hw j hj k hk => ?_⟩
      · obtain ⟨hk', hs⟩ := hweak.opens k hk
        change ((step w.store r).openState k).file = some f at hf
        change FileOn w.disk f.handle ((step w.store r).openState k).path
        rw [hs] at hf ⊢
        exact h.files k hk' f hf
      · obtain ⟨hj', hsj⟩ := hweak.opens j hj
        obtain ⟨hk', hsk⟩ := hweak.opens k hk
        have hjk := hw j hj' k hk'
        rw [← hsj, ← hsk] at hjk
        exact hjk
    · exact ⟨h, id⟩
  | openFile fh c =>
    refine hplain ?_ trivial
    obtain ⟨hf, hw⟩ := openFile_safe fh c h.indexed h.files
    have hc := (step_evolves h.consistent (.openFile w.clock fh c.args (w.openEnv fh c))).consistent
    simp only [step, openFile_store] at hc
    exact ⟨⟨hc, hf⟩, hw⟩
  | openDowngrade fh a fault =>
    refine hplain ?_ trivial
    obtain ⟨hf, hw⟩ := openDowngrade_safe fh a fault h.files
    have hc := (step_evolves h.consistent (.openDowngrade w.clock fh a
      (((openNow w.disk (fh.getD []) ⟨false, false, false⟩ fault).mapError fhStatus).map
        fun _ => w.disk.files))).consistent
    simp only [step, openDowngrade_store] at hc
    exact ⟨⟨hc, hf⟩, hw⟩
  | write fh a x =>
    exact hplain (h.settled (write_settled w fh a x) (write_spares w fh a x).disk) trivial
  | setAttr fh a apply sized =>
    exact hplain (h.settled (setAttr_settled w fh a apply sized)
      (setAttr_spares w fh a apply sized).disk) trivial
  | remove fh name fault =>
    exact hplain (h.settled (remove_settled w fh name fault)
      (remove_spares w fh name fault).disk) trivial
  | rename saved fh oldName newName fault change =>
    obtain ⟨hf, hw⟩ := rename_state saved fh oldName newName fault change h.indexed h.files
    exact ⟨⟨(rename_evolves h.consistent w.clock _ saved fh oldName newName).consistent, hf⟩, hw⟩

end Steps

section Requests

variable {w : World} {k : ℕ} {p : Path} {y : ℕ}

variable {a : SetAttrArgs} {apply : NfsStat} {sized : Bool} {n : ℕ}

end Requests

def serve (w : World) (e : Event) : Option World := some (next w e)

/-- An OPEN that creates `f` in the root, by a client registered as number 1. -/
def createCall (owner : UInt8) (access deny : UInt32) (size : Option ℕ) : OpenCall where
  args := ⟨1, access, deny, 1, [owner], 1, 0, 0, .ok "f", true, .ok size⟩
  verf := 0
  order := []
  fault := none
  apply := nfs4OK
  sized := false
  before := 0
  after := 0
  applied := []

end NfsDenyWrite
