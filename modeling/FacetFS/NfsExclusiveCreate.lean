import FacetFS.EventSystem
import FacetFS.NfsWorld

/-! # Exclusive creates

An EXCLUSIVE4 OPEN that finds its target is taken for a retransmission if the verifier recorded for
the path is its own. The table knows paths, not objects, so it is right as long as a path does not
come to name another file while its record lives. -/
namespace NfsExclusiveCreate

open EventSystem NfsSeqid NfsStore NfsOps NfsRename NfsDisk NfsStoreChange NfsWorld

/-- The world with the history of its objects: the verifier of the EXCLUSIVE4 OPEN that created
one. -/
structure System where
  world : World
  born : ℕ → Option UInt64

def start (cfg : Config) (d : Disk) (ttl max : ℕ) : System :=
  ⟨NfsWorld.start cfg d ttl max, fun _ => none⟩

def exclusiveVerf : Event → Option UInt64
  | .openFile _ c => if c.exclusive then some c.verf else none
  | _ => none

def next (s : System) (e : Event) : Option System :=
  let w := NfsWorld.next s.world e
  some ⟨w, if s.world.disk.objects < w.disk.objects then
    Function.update s.born s.world.disk.objects (exclusiveVerf e) else s.born⟩

def Live (w : World) (p : Path) (r : ExclusiveRecord) : Prop :=
  (p, r) ∈ w.exclusive.verfs ∧ w.exclusive.expired w.clock r = false

/-- A path with a live record names nothing, or a file created with the recorded verifier. -/
def Truthful (s : System) : Prop :=
  ∀ p r, Live s.world p r → ∀ x, s.world.disk.fileAt p = some x → s.born x = some r.verf

/-- An EXCLUSIVE4 OPEN carries a name and a verifier, and no attributes. -/
structure IsExclusive (c : OpenCall) : Prop where
  mode : c.exclusive = true
  attrs : c.args.attrs = .ok none
  named : ∃ name, c.args.name = .ok name

/-- An EXCLUSIVE4 OPEN that finds its target and succeeds has found a file created with its own
verifier. -/
def Identifies (s : System) : Prop :=
  ∀ fh c, IsExclusive c → (s.world.disk.lstat (openPath fh c.args)).isSome = true →
    (s.world.openFile fh c).1.ran = true → (s.world.openFile fh c).1.status = nfs4OK →
    ∃ x, s.world.disk.fileAt (openPath fh c.args) = some x ∧ s.born x = some c.verf

variable {c : OpenCall} {fh : Option Path}

section Opening

variable {d d' : Disk} {p : Path}

/-- Names after a file was opened: at most one is new, for a new object. -/
structure Opened (d d' : Disk) (p : Path) : Prop where
  objects : d.objects ≤ d'.objects
  names : ∀ q x, d'.fileAt q = some x → d.fileAt q = some x ∨
    (q = p ∧ d.fileAt q = none ∧ x = d.objects ∧ d.objects < d'.objects)

theorem Opened.refl (d : Disk) (p : Path) : Opened d d p :=
  ⟨le_refl _, fun _ _ h => .inl h⟩

theorem openAt_opened {m} (h : d.openAt p m = .ok d') : Opened d d' p := by
  cases hx : d.fileAt p with
  | none =>
    obtain ⟨-, ho, -, -, -, hnames⟩ := openAt_new d hx h
    refine ⟨by omega, fun q x hq => ?_⟩
    rw [hnames] at hq
    split at hq
    · rename_i hqp
      subst hqp
      exact .inr ⟨rfl, hx, (Option.some.inj hq).symm, by omega⟩
    · exact .inl hq
  | some x =>
    rw [openAt_old d hx h]
    refine ⟨by cases m.trunc <;> exact le_refl _, fun q y hq => .inl ?_⟩
    cases hm : m.trunc <;> rw [hm] at hq <;> exact hq

theorem Opened.setSize (h : Opened d d' p) (q : Path) (n : Option ℕ) :
    Opened d (setSize d' q n) p := by
  cases n with
  | none => exact h
  | some n =>
    have ht : (d'.truncate q n).tree = d'.tree := truncate_tree d' q n
    have ho : (d'.truncate q n).objects = d'.objects := by
      unfold Disk.truncate
      split <;> rfl
    refine ⟨?_, fun r x hr => ?_⟩
    · change _ ≤ (d'.truncate q n).objects
      rw [ho]
      exact h.objects
    · change FileTree.fileAt (d'.truncate q n).tree r = some x at hr
      change _ ∨ (_ ∧ _ ∧ _ ∧ _ < (d'.truncate q n).objects)
      rw [ht] at hr
      rw [ho]
      exact h.names r x hr

theorem removeAll_fileAt {p} (hp : p ≠ []) (d : Disk) : (d.removeAll p).fileAt p = none := by
  unfold Disk.removeAll
  rw [dif_pos hp]
  exact (FileTree.fileAt_removeAll d.tree hp p).trans (if_pos (List.prefix_refl p))

/-- The target of an EXCLUSIVE4 OPEN was not there, or its verifier is the recorded one. -/
def Retransmitted (w : World) (target : Path) (c : OpenCall) : Prop :=
  c.exclusive = true → ∀ x, w.disk.fileAt target = some x →
    (w.exclusive.matchesVerf w.clock target c.verf).1 = true

/-- What an OPEN does to names and records. -/
structure OpenEffect (w w' : World) (target : Path) (c : OpenCall) : Prop where
  clock : w'.clock = w.clock
  ttl : w'.exclusive.ttl = w.exclusive.ttl
  disk : Opened w.disk w'.disk target
  verfs : ∀ q r, (q, r) ∈ w'.exclusive.verfs → ((q, r) ∈ w.exclusive.verfs ∧
      (c.exclusive = true → ∀ x, w'.disk.fileAt q = some x → w.disk.fileAt q = some x)) ∨
    (c.exclusive = true ∧ q = target ∧ r.verf = c.verf ∧ Retransmitted w target c)
  kept : c.exclusive = false → ∀ q r, (q, r) ∈ w.exclusive.verfs →
    (q, r) ∈ w'.exclusive.verfs ∨ w'.disk.fileAt q = none

variable {w w' : World}

variable {target : Path}

theorem OpenEffect.of_names (hc : w'.clock = w.clock)
    (hd : Opened w.disk w'.disk target) (hx : Thinned w.exclusive w'.exclusive)
    (hold : c.exclusive = true → ∀ q x, w'.disk.fileAt q = some x → w.disk.fileAt q = some x)
    (hk : c.exclusive = false → w'.exclusive = w.exclusive) : OpenEffect w w' target c := by
  refine ⟨hc, hx.ttl, hd, fun q r h => .inl ⟨hx.verfs h, fun he => hold he q⟩,
    fun he q r h => .inl ?_⟩
  rw [hk he]
  exact h

theorem undo_effect {existed} (ht : target ≠ []) (hc : w'.clock = w.clock)
    (hd : Opened w.disk w'.disk target) (hx : Thinned w.exclusive w'.exclusive)
    (hold : existed = true → ∀ q x, w'.disk.fileAt q = some x → w.disk.fileAt q = some x)
    (hk : c.exclusive = false → w'.exclusive = w.exclusive) :
    OpenEffect w (w'.undo target existed c) target c := by
  unfold World.undo
  split
  · have hsub : ∀ q x, (w'.disk.removeAll target).fileAt q = some x →
        w.disk.fileAt q = some x := by
      intro q x hq
      rcases hd.names q x (fileAt_removeAll_le w'.disk hq) with h | ⟨rfl, -⟩
      · exact h
      · rw [removeAll_fileAt ht] at hq
        cases hq
    refine ⟨hc, hx.ttl, ⟨?_, fun q x hq => .inl (hsub q x hq)⟩, fun q r h => .inl ?_,
      fun he q r h => ?_⟩
    · change _ ≤ (w'.disk.removeAll target).objects
      rw [removeAll_objects]
      exact hd.objects
    · exact ⟨hx.verfs ((forget_thinned w'.exclusive target).verfs h), fun _ => hsub q⟩
    rw [← hk he] at h
    by_cases hq : q = target
    · right
      rw [hq]
      exact removeAll_fileAt ht w'.disk
    · exact .inl (List.mem_filter.2 ⟨h, by simpa using hq⟩)
  rename_i hnot
  refine .of_names hc hd hx (fun he => ?_) hk
  have hmode : c.args.createMode = createExclusive := by
    simp only [OpenCall.exclusive, Bool.and_eq_true, beq_iff_eq] at he
    exact he.2
  cases existed with
  | true => exact hold rfl
  | false => exact absurd ⟨rfl, .inr hmode⟩ hnot

theorem remember_effect (hm : Retransmitted w target c) (hc : w'.clock = w.clock)
    (hd : Opened w.disk w'.disk target) (hx : Thinned w.exclusive w'.exclusive)
    (hk : c.exclusive = false → w'.exclusive = w.exclusive) :
    OpenEffect w (w'.remember target c) target c := by
  unfold World.remember
  split
  · rename_i he
    refine ⟨hc, (record_ttl _ _ _ _ _).trans hx.ttl, hd, fun q r h => ?_, fun hne => ?_⟩
    · rcases mem_record _ h with ⟨rfl, rfl⟩ | ⟨hq, hold⟩
      · exact .inr ⟨he, rfl, rfl, hm⟩
      · refine .inl ⟨hx.verfs hold, fun _ x hx => ?_⟩
        rcases hd.names q x hx with h | ⟨rfl, -⟩
        · exact h
        · exact absurd rfl hq
    · rw [he] at hne
      cases hne
  · rename_i he
    exact .of_names hc hd hx (fun h => absurd h he) hk

theorem applyCalls_effect {plan existed opened} (ht : plan.target ≠ []) (hm : Retransmitted w plan.target c)
    (hc : w'.clock = w.clock)
    (hd : Opened w.disk (opened.getD w'.disk) plan.target)
    (hx : Thinned w.exclusive w'.exclusive)
    (hold : existed = true → ∀ q x, (opened.getD w'.disk).fileAt q = some x →
      w.disk.fileAt q = some x)
    (hk : c.exclusive = false → w'.exclusive = w.exclusive) :
    OpenEffect w (w'.applyCalls plan c existed opened).2 plan.target c := by
  have hsize : existed = true → ∀ q x,
      (setSize (opened.getD w'.disk) plan.target c.size).fileAt q = some x →
        w.disk.fileAt q = some x := by
    intro he q x hq
    refine hold he q x ?_
    cases hs : c.size with
    | none => rwa [hs] at hq
    | some n =>
      rw [hs] at hq
      change FileTree.fileAt (Disk.truncate _ plan.target n).tree q = some x at hq
      rwa [truncate_tree] at hq
  unfold World.applyCalls
  simp only
  split
  · cases hs : c.sized with
    | false => exact undo_effect ht hc hd hx hold hk
    | true => exact undo_effect ht hc (hd.setSize _ _) hx hsize hk
  split
  · exact remember_effect hm hc (hd.setSize _ _) hx hk
  rename_i htype
  refine .of_names hc hd hx (fun he => ?_) hk
  simp only [OpenCall.exclusive, Bool.and_eq_true, beq_iff_eq] at he
  exact absurd he.1 htype

theorem openCalls_effect (w w' : World) (plan : OpenPlan) (c : OpenCall) (m : OpenMode)
    (existed : Bool) (ht : plan.target ≠ []) (hm : Retransmitted w plan.target c)
    (hc : w'.clock = w.clock) (hd : w'.disk = w.disk) (hx : Thinned w.exclusive w'.exclusive)
    (hold : existed = true → ∃ x, w.disk.fileAt plan.target = some x)
    (hk : c.exclusive = false → w'.exclusive = w.exclusive) :
    OpenEffect w (w'.openCalls plan c m existed).2 plan.target c := by
  have hrefl : ∀ q x, w'.disk.fileAt q = some x → w.disk.fileAt q = some x := by
    intro q x hq
    rwa [hd] at hq
  have hopened : Opened w.disk w'.disk plan.target := by
    rw [hd]
    exact .refl _ _
  unfold World.openCalls
  split
  · exact .of_names hc hopened hx (fun _ => hrefl) hk
  rename_i opened hcall
  cases hn : plan.needOpen with
  | false =>
    rw [hn] at hcall
    cases hcall
    exact applyCalls_effect ht hm hc hopened hx (fun _ => hrefl) hk
  | true =>
    rw [hn] at hcall
    cases hf : c.fault with
    | some e =>
      rw [hf] at hcall
      cases hcall
    | none =>
      rw [hf, hd] at hcall
      simp only [if_true, openNow] at hcall
      cases hopen : w.disk.openAt plan.target m with
      | error e =>
        rw [hopen] at hcall
        cases hcall
      | ok d =>
        rw [hopen] at hcall
        cases hcall
        refine applyCalls_effect ht hm hc (openAt_opened hopen) hx (fun he q x hq => ?_) hk
        obtain ⟨y, hy⟩ := hold he
        rcases (openAt_opened hopen).names q x hq with h | ⟨rfl, hnone, -⟩
        · exact h
        · rw [hy] at hnone
          cases hnone

theorem consult_exclusive (w : World) (fh : Option Path)
    (h : c.exclusive = false) : w.consult fh c = w := by
  unfold World.consult World.consults
  simp [h]

theorem openTarget_file (h : openTarget fh c.args (w.openEnv fh c) = .ok target)
    (he : (w.disk.lstat (openPath fh c.args)).isSome = true) :
    ∃ x, w.disk.fileAt (openPath fh c.args) = some x := by
  obtain ⟨-, -, ⟨k, hk, hex⟩ | ⟨hno, -⟩⟩ := openTarget_ok h
  · apply lstat_regular
    simp only [World.openEnv, Disk.lookup] at hk
    cases hl : w.disk.lstat (openPath fh c.args) with
    | none =>
      rw [hl] at he
      cases he
    | some k' =>
      rw [hl] at hk
      cases hk
      unfold existingStatus at hex
      split at hex
      · cases hex
      cases k with
      | directory => cases hex
      | symlink => cases hex
      | regular => rfl
  · obtain ⟨k, hk⟩ := Option.isSome_iff_exists.1 he
    simp only [World.openEnv, Disk.lookup, hk] at hno
    cases hno

theorem openTarget_retransmitted (h : openTarget fh c.args (w.openEnv fh c) = .ok target) :
    Retransmitted w (openPath fh c.args) c := by
  intro he x hx
  obtain ⟨-, -, ⟨k, hk, hex⟩ | ⟨hno, -⟩⟩ := openTarget_ok h
  · unfold existingStatus at hex
    split at hex
    · cases hex
    rename_i hnot
    simp only [OpenCall.exclusive, Bool.and_eq_true] at he
    simp only [createRefused, he.1, he.2, World.openEnv, Bool.true_and, Bool.or_eq_true,
      Bool.not_eq_true', not_or, Bool.not_eq_false] at hnot
    exact hnot.2
  simp only [World.openEnv, Disk.lookup] at hno
  cases hl : w.disk.lstat (openPath fh c.args) with
  | none =>
    rw [fileAt_none_of_lstat w.disk hl] at hx
    cases hx
  | some k =>
    rw [hl] at hno
    cases hno

theorem openWith_effect (w : World) (fh : Option Path) (o : OwnerRef) (c : OpenCall) :
    OpenEffect w (w.openWith fh o c).2 (openPath fh c.args) c := by
  have hreach := openWith_reach w fh o c
  have hk : ∀ st, c.exclusive = false → ((w.consult fh c).setStore st).exclusive = w.exclusive := by
    intro st he
    rw [consult_exclusive w fh he]
    rfl
  have hcalls : ∀ plan, openTarget fh c.args (w.openEnv fh c) = .ok plan.target →
      OpenEffect w (((w.consult fh c).setStore
        (openRecall w.store w.clock plan c.args).2).openCalls plan c (w.openMode fh c)
        (w.disk.lstat (openPath fh c.args)).isSome).2 (openPath fh c.args) c := by
    intro plan ht
    obtain ⟨htarget, hne, -⟩ := openTarget_ok ht
    have hfile : (w.disk.lstat (openPath fh c.args)).isSome = true →
        ∃ x, w.disk.fileAt plan.target = some x := by
      rw [htarget]
      exact openTarget_file ht
    have heff := openCalls_effect w
      ((w.consult fh c).setStore (openRecall w.store w.clock plan c.args).2) plan c
      (w.openMode fh c) _ hne (htarget ▸ openTarget_retransmitted ht) (consult_clock w fh c) (consult_disk w fh c)
      (consult_thinned w fh c) hfile (hk _)
    rwa [htarget] at heff
  generalize hr : w.openWith fh o c = r at hreach
  cases hreach with
  | stopped e st _ _ =>
    refine .of_names (consult_clock w fh c) ?_ (consult_thinned w fh c) (fun _ q x hq => ?_) (hk st)
    · change Opened w.disk (w.consult fh c).disk _
      rw [consult_disk]
      exact .refl _ _
    · change (w.consult fh c).disk.fileAt q = some x at hq
      rwa [consult_disk] at hq
  | called plan w' e target checked recalled calls =>
    have heff := hcalls plan target
    rwa [calls] at heff
  | installed plan w' f r target checked recalled calls =>
    have heff := hcalls plan target
    rw [calls] at heff
    exact ⟨heff.clock, heff.ttl, heff.disk, heff.verfs, heff.kept⟩

theorem openFile_effect (w : World) (fh : Option Path) (c : OpenCall) :
    OpenEffect w (w.openFile fh c).2 (openPath fh c.args) c := by
  have hsame : ∀ st, OpenEffect w (w.setStore st) (openPath fh c.args) c := fun st =>
    .of_names rfl (.refl _ _) (.refl _) (fun _ _ _ h => h) fun _ => rfl
  unfold World.openFile
  split
  · exact hsame _
  rename_i o st _
  obtain ⟨f, ⟨-, he⟩ | ⟨-, -, he⟩⟩ := sequenced_world (w.setStore st) o opOpen c.args.seqid
    (fun w => w.openWith fh o c)
  · rw [he]
    exact hsame _
  rw [he]
  have heff := openWith_effect (w.setStore st) fh o c
  exact ⟨heff.clock, heff.ttl, heff.disk, heff.verfs, heff.kept⟩

theorem openTarget_status {e}
    (h : openTarget fh c.args (w.openEnv fh c) = .error e) (hc : IsExclusive c) : e ≠ nfs4OK := by
  obtain ⟨name, hname⟩ := hc.named
  rcases openTarget_error h with
    hn | ⟨-, hr⟩ | rfl | ⟨-, hd⟩ | ha | rfl | ⟨k, -, hk⟩ | hl
  · rw [hname] at hn
    cases hn
  · exact hr
  · decide
  · exact hd
  · rw [hc.attrs] at ha
    cases ha
  · decide
  · exact hk
  · exact openEnv_lookup w fh c e hl

theorem openWith_ok {o} (hc : IsExclusive c) (h : (w.openWith fh o c).1.status = nfs4OK) :
    ∃ target, openTarget fh c.args (w.openEnv fh c) = .ok target := by
  cases ht : openTarget fh c.args (w.openEnv fh c) with
  | ok target => exact ⟨target, rfl⟩
  | error e =>
    simp only [World.openWith, ht] at h
    exact absurd h (openTarget_status ht hc)

end Opening

section Others

/-- A disk with the same objects, none of which got a name it had not. -/
structure Keeps (d d' : Disk) : Prop where
  objects : d'.objects = d.objects
  names : ∀ q x, d'.fileAt q = some x → ∃ p, d.fileAt p = some x

theorem rename_keeps (d : Disk) (p q : Path) : Keeps d (d.rename p q) := by
  unfold Disk.rename
  split
  · rename_i hr
    refine ⟨rfl, fun r x h => ?_⟩
    change FileTree.fileAt (d.tree.rename p q hr.1 hr.2.1 hr.2.2.1 hr.2.2.2) r = some x at h
    rw [FileTree.fileAt_rename] at h
    split at h
    · exact ⟨_, h⟩
    split at h
    · cases h
    · exact ⟨r, h⟩
  · exact ⟨rfl, fun r _ h => ⟨r, h⟩⟩

theorem next_cases (w : World) (e : Event) : (∃ d, e = .tick d) ∨ (∃ fh c, e = .openFile fh c) ∨
      (exclusiveVerf e = none ∧ (NfsWorld.next w e).exclusive = w.exclusive ∧
        (NfsWorld.next w e).clock = w.clock ∧ Keeps w.disk (NfsWorld.next w e).disk) := by
  have hspares : Spares w (NfsWorld.next w e) →
      (NfsWorld.next w e).exclusive = w.exclusive ∧ (NfsWorld.next w e).clock = w.clock ∧
        Keeps w.disk (NfsWorld.next w e).disk :=
    fun h => ⟨h.exclusive, h.clock, h.disk.objects, fun q x hq => ⟨q, h.disk.names q x hq⟩⟩
  cases e with
  | tick d => exact .inl ⟨d, rfl⟩
  | openFile fh c => exact .inr (.inl ⟨fh, c, rfl⟩)
  | request r => exact .inr (.inr ⟨rfl, hspares (request_spares w r)⟩)
  | openDowngrade fh a fault =>
    exact .inr (.inr ⟨rfl, hspares (openDowngrade_spares w fh a fault)⟩)
  | write fh a x => exact .inr (.inr ⟨rfl, hspares (write_spares w fh a x)⟩)
  | setAttr fh a apply sized =>
    exact .inr (.inr ⟨rfl, hspares (setAttr_spares w fh a apply sized)⟩)
  | remove fh name fault => exact .inr (.inr ⟨rfl, hspares (remove_spares w fh name fault)⟩)
  | rename saved fh oldName newName fault change =>
    refine .inr (.inr ⟨rfl, rfl, rfl, ?_⟩)
    simp only [NfsWorld.next, World.rename]
    split
    · unfold World.renameDisk
      split
      · exact rename_keeps _ _ _
      · exact ⟨rfl, fun r _ h => ⟨r, h⟩⟩
    · exact ⟨rfl, fun r _ h => ⟨r, h⟩⟩

end Others

section Steps

variable {s s' : System}

theorem Truthful.identifies (h : Truthful s) : Identifies s := by
  intro fh c hc hex hran hok
  unfold World.openFile at hran hok
  split at hran
  · cases hran
  rename_i o st hl
  rw [hl] at hok
  simp only at hok
  obtain ⟨f, ⟨hno, -⟩ | ⟨-, hst, -⟩⟩ := sequenced_world (s.world.setStore st) o opOpen
    c.args.seqid (fun w => w.openWith fh o c)
  · rw [hno] at hran
    cases hran
  rw [hst] at hok
  obtain ⟨target, ht⟩ := openWith_ok hc hok
  obtain ⟨x, hx⟩ := openTarget_file ht hex
  obtain ⟨r, hr, hlive, hv⟩ :=
    matchesVerf_true _ (openTarget_retransmitted ht hc.mode x hx)
  refine ⟨x, hx, ?_⟩
  rw [← hv]
  exact h _ r ⟨hr, hlive⟩ x hx

def Fresh (s : System) : Prop := ∀ x, s.world.disk.objects ≤ x → s.born x = none

/-- Unless the step is an EXCLUSIVE4 OPEN, a path with a live record keeps its file, loses it, or
gets one created with the recorded verifier. -/
def NameKept (s : System) (e : Event) : Prop :=
  exclusiveVerf e ≠ none ∨ ∀ p r x, Live s.world p r →
    (NfsWorld.next s.world e).disk.fileAt p = some x →
    s.world.disk.fileAt p = some x ∨ s.born x = some r.verf

/-- What a step that is not an EXCLUSIVE4 OPEN does: no record is new, one is dropped only with
its file, and at most one object is. -/
structure Plain (w w' : World) : Prop where
  ttl : w'.exclusive.ttl = w.exclusive.ttl
  clock : w.clock ≤ w'.clock
  still : w'.clock = w.clock ∨ w'.disk = w.disk
  verfs : w'.exclusive.verfs ⊆ w.exclusive.verfs
  kept : ∀ q r, (q, r) ∈ w.exclusive.verfs →
    (q, r) ∈ w'.exclusive.verfs ∨ w'.disk.fileAt q = none
  objects : w.disk.objects ≤ w'.disk.objects
  names : ∀ q x, w'.disk.fileAt q = some x → x < w.disk.objects ∨
    (x = w.disk.objects ∧ w.disk.objects < w'.disk.objects)

variable {e : Event}

theorem next_plain {w} (he : exclusiveVerf e = none) : Plain w (NfsWorld.next w e) := by
  have hbound : ∀ q x, w.disk.fileAt q = some x → x < w.disk.objects := w.disk.named.bound
  rcases next_cases w e with ⟨d, rfl⟩ | ⟨fh, c, rfl⟩ | ⟨-, h⟩
  · exact ⟨rfl, Nat.le_add_right _ _, .inr rfl, fun _ h => h, fun _ _ h => .inl h, le_refl _,
      fun q x h => .inl (hbound q x h)⟩
  · have hx : c.exclusive = false := by
      by_contra hne
      simp [exclusiveVerf, hne] at he
    have h := openFile_effect w fh c
    refine ⟨h.ttl, le_of_eq h.clock.symm, .inl h.clock, fun ⟨q, r⟩ hm => ?_, h.kept hx,
      h.disk.objects, fun q x hq => ?_⟩
    · rcases h.verfs q r hm with ⟨hold, -⟩ | ⟨hne, -⟩
      · exact hold
      · rw [hx] at hne
        cases hne
    · rcases h.disk.names q x hq with hold | ⟨-, -, hnew, hlt⟩
      · exact .inl (hbound q x hold)
      · exact .inr ⟨hnew, hlt⟩
  obtain ⟨hex, hclock, hkeeps⟩ := h
  refine ⟨by rw [hex], le_of_eq hclock.symm, .inl hclock, by rw [hex]; simp,
    fun q r hm => ?_, le_of_eq hkeeps.objects.symm, fun q x hq => ?_⟩
  · rw [hex]
    exact .inl hm
  · obtain ⟨p, hp⟩ := hkeeps.names q x hq
    exact .inl (hbound p x hp)

theorem expired_mono {x x' : ExclusiveCreates} (ht : x'.ttl = x.ttl) {now now' : ℕ}
    (hn : now ≤ now') {r : ExclusiveRecord} (h : x'.expired now' r = false) :
    x.expired now r = false := by
  simp only [ExclusiveCreates.expired, ht, gt_iff_lt, decide_eq_false_iff_not, not_lt] at h ⊢
  omega

theorem born_next (h : next s e = some s') {x} (hx : x ≠ s.world.disk.objects) :
    s'.born x = s.born x := by
  cases h
  simp only
  split
  · exact Function.update_of_ne hx _ _
  · rfl

theorem born_new (h : next s e = some s') (hlt : s.world.disk.objects < s'.world.disk.objects) :
    s'.born s.world.disk.objects = exclusiveVerf e := by
  cases h
  simp only at hlt ⊢
  rw [if_pos hlt, Function.update_self]

theorem next_objects (w : World) (e : Event) :
    w.disk.objects ≤ (NfsWorld.next w e).disk.objects := by
  rcases next_cases w e with ⟨d, rfl⟩ | ⟨fh, c, rfl⟩ | ⟨-, h⟩
  · exact le_refl _
  · exact (openFile_effect w fh c).disk.objects
  · exact le_of_eq h.2.2.objects.symm

theorem next_fresh (h : next s e = some s') (hf : Fresh s) : Fresh s' := by
  have hle := next_objects s.world e
  cases h
  intro x hx
  simp only at hx ⊢
  split
  · rename_i hlt
    rw [Function.update_of_ne (by omega)]
    exact hf x (by omega)
  · exact hf x (by omega)

theorem exclusive_truthful (hc : c.exclusive = true)
    (ht : Truthful s) (h : next s (.openFile fh c) = some s') : Truthful s' := by
  have heff : OpenEffect s.world s'.world (openPath fh c.args) c := by
    cases h
    exact openFile_effect s.world fh c
  intro p r ⟨hmem, hlive⟩ x hx
  have hold : ∀ r', Live s.world p r' → s.world.disk.fileAt p = some x →
      s'.born x = some r'.verf := by
    intro r' hr' hq
    rw [born_next h (Nat.ne_of_lt (s.world.disk.named.bound p x hq))]
    exact ht p r' hr' x hq
  rcases heff.verfs p r hmem with ⟨hmem', hkeep⟩ | ⟨-, rfl, hverf, hre⟩
  · exact hold r ⟨hmem', expired_mono heff.ttl (le_of_eq heff.clock.symm) hlive⟩ (hkeep hc x hx)
  rcases heff.disk.names _ x hx with hq | ⟨-, -, rfl, hlt⟩
  · obtain ⟨r', hr', hexp, hv⟩ := matchesVerf_true _ (hre hc x hq)
    rw [hverf, ← hv]
    exact hold r' ⟨hr', hexp⟩ hq
  · rw [born_new h hlt, hverf]
    exact if_pos hc

theorem next_truthful_iff (hf : Fresh s) (ht : Truthful s)
    (h : next s e = some s') : Truthful s' ↔ NameKept s e := by
  cases he : exclusiveVerf e with
  | some v =>
    have hkept : NameKept s e := by
      left
      rw [he]
      exact Option.some_ne_none v
    refine iff_of_true ?_ hkept
    cases e with
    | openFile fh c =>
      refine exclusive_truthful ?_ ht h
      by_contra hne
      simp [exclusiveVerf, hne] at he
    | _ => cases he
  | none =>
    have hw : s'.world = NfsWorld.next s.world e := by
      cases h
      rfl
    have hp : Plain s.world s'.world := hw ▸ next_plain he
    constructor
    · intro ht'
      refine .inr fun p r x hlive hx => ?_
      rw [← hw] at hx
      rcases hp.still with hclock | hdisk
      · right
        have hmem : (p, r) ∈ s'.world.exclusive.verfs := by
          rcases hp.kept p r hlive.1 with hmem | hnone
          · exact hmem
          · rw [hnone] at hx
            cases hx
        have hexp := expired_mono hp.ttl.symm (le_of_eq hclock) hlive.2
        have hborn := ht' p r ⟨hmem, hexp⟩ x hx
        rcases hp.names p x hx with hlt | ⟨rfl, hlt⟩
        · rwa [born_next h (Nat.ne_of_lt hlt)] at hborn
        · rw [born_new h hlt, he] at hborn
          cases hborn
      · left
        rwa [hdisk] at hx
    intro hkept p r hlive x hx
    have hold : Live s.world p r := ⟨hp.verfs hlive.1, expired_mono hp.ttl hp.clock hlive.2⟩
    have hborn : s.born x = some r.verf := by
      rcases hkept with hne | hkept
      · exact absurd he hne
      rw [hw] at hx
      rcases hkept p r x hold hx with hq | hborn
      · exact ht p r hold x hq
      · exact hborn
    rwa [born_next h]
    rintro rfl
    rw [hf _ (le_refl _)] at hborn
    cases hborn

/-- EXCLUSIVE4 creates identify their objects in the runs that do not give a path with a live
record another file, and a step that does makes the table wrong at once. -/
theorem exclusive_identifies_iff (cfg : Config) (d : Disk) (ttl max : ℕ) :
    (∀ es s, Meets next NameKept (start cfg d ttl max) es →
      run next (start cfg d ttl max) es = some s → Truthful s ∧ Identifies s) ∧
    ∀ es s e s', run next (start cfg d ttl max) es = some s → Truthful s →
      next s e = some s' → (Truthful s' ↔ NameKept s e) := by
  have hkept := kept_iff next (I := Fresh) (P := Truthful) (s := start cfg d ttl max)
    (fun s e t hf hn => ⟨next_fresh hn hf, fun ht => next_truthful_iff hf ht hn⟩)
    (fun _ _ => rfl) nofun
  refine ⟨fun es s hm hrun => ?_, hkept.2⟩
  have ht := hkept.1 es s hm hrun
  exact ⟨ht, ht.identifies⟩

/-- An OPEN that creates `f` in the root, by a client registered as number 1. -/
def createCall (owner : UInt8) (mode : UInt32) (verf : UInt64) : OpenCall where
  args := ⟨1, 3, 0, 1, [owner], 1, mode, 0, .ok "f", false, .ok none⟩
  verf := verf
  order := []
  fault := none
  apply := nfs4OK
  sized := false
  before := 0
  after := 0
  applied := []

/-- The file made by an exclusive create is removed and another made in its place. -/
def recreated : List Event :=
  [.request (.setClientID 0 [1] 7 9 "none"), .request (.setClientIDConfirm 0 1 9),
    .openFile (some []) (createCall 10 createExclusive 77), .remove (some []) (.ok "f") none,
    .openFile (some []) (createCall 11 0 0)]

theorem exclusive_takes_another_file :
    ∃ s, run next (start ⟨90, 90, 5, false⟩ Disk.empty 90 1024) recreated = some s ∧
      ¬ Identifies s ∧
      (s.world.openFile (some []) (createCall 12 createExclusive 77)).1.status = nfs4OK := by
  refine exists_run (P := fun s => s.world.disk.fileAt ["f"] = some 1 ∧
    s.world.disk.lstat ["f"] = some .regular ∧ s.born 1 = none ∧
    (s.world.openFile (some []) (createCall 12 createExclusive 77)).1.ran = true ∧
    (s.world.openFile (some []) (createCall 12 createExclusive 77)).1.status = nfs4OK)
    (by decide +kernel) ?_
  rintro s hs ⟨hfile, hstat, hborn, hran, hok⟩
  refine ⟨fun h => ?_, hok⟩
  obtain ⟨x, hx, hv⟩ := h (some []) (createCall 12 createExclusive 77)
    ⟨by decide, rfl, "f", rfl⟩ (by change (s.world.disk.lstat ["f"]).isSome = true; rw [hstat]; rfl)
    hran hok
  change s.world.disk.fileAt ["f"] = some x at hx
  obtain rfl := Option.some.inj (hfile.symm.trans hx)
  rw [hborn] at hv
  cases hv

end Steps

end NfsExclusiveCreate
