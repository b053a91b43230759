import FacetFS.EventSystem
import FacetFS.FileTree
import FacetFS.NfsSeqid

/-! # The cleanup of a failed CREATE

CREATE of a directory as its separate FileSystem calls, between which the requests of other clients
are served. Every node carries the number of the request that created it. If the attributes cannot
be set, the directory is removed again, with everything that has come into it. -/
namespace NfsCreateCleanup

open EventSystem FileTree NfsSeqid

abbrev Files := Tree String ℕ Unit

def makeAt (t : Files) (r : ℕ) (p : Path) (isDir : Bool) : Option Files :=
  if h : p ≠ [] ∧ dirAt (t.node p.dropLast) = true ∧ t.node p = none then
    some (t.insert p (if isDir then .dir r else .file r ()) h.1 h.2.1 h.2.2)
  else none

def removeAll (t : Files) (p : Path) : Files := if hp : p ≠ [] then t.removeAll p hp else t

/-- The next step of a CREATE. -/
inductive Stage where
  | checked | made
  | failed (st : NfsStat)
  | answered (st : NfsStat)
  deriving DecidableEq

structure Job where
  target : Path
  stage : Stage

/-- `lost` lists what CREATEs that fail have removed and others have created. -/
structure State where
  tree : Files
  jobs : ℕ → Option Job
  count : ℕ
  lost : List Path

def start : State := ⟨.empty 0, fun _ => none, 1, []⟩

/-- `args` is the status of the arguments of a CREATE; `fault` and `st` are what its FileSystem calls
come to. -/
inductive Event where
  | check (dir : Path) (name : String) (args : NfsStat)
  | mkdir (r : ℕ) (fault : Option NfsStat)
  | applySetAttrs (r : ℕ) (st : NfsStat)
  | cleanup (r : ℕ)
  | other (p : Path) (isDir : Bool)

def checkStatus (t : Files) (dir : Path) (name : String) (args : NfsStat) : NfsStat :=
  if args ≠ nfs4OK then args
  else match t.node dir with
    | none => nfs4ErrStale
    | some n =>
      if n.isDir = false then nfs4ErrNotDir
      else if (t.node (dir ++ [name])).isSome then nfs4ErrExist else nfs4OK

def State.setJob (s : State) (r : ℕ) (p : Path) (stage : Stage) : State :=
  { s with jobs := Function.update s.jobs r (some ⟨p, stage⟩) }

def next (s : State) : Event → Option State
  | .check dir name args =>
    let st := checkStatus s.tree dir name args
    some ({ s with count := s.count + 1 }.setJob s.count (dir ++ [name])
      (if st = nfs4OK then .checked else .answered st))
  | .mkdir r fault =>
    match s.jobs r with
    | some ⟨p, .checked⟩ =>
      match fault, makeAt s.tree r p true with
      | some st, _ => some (s.setJob r p (.answered st))
      | none, none => some (s.setJob r p (.answered nfs4ErrExist))
      | none, some t => some ({ s with tree := t }.setJob r p .made)
    | _ => none
  | .applySetAttrs r st =>
    match s.jobs r with
    | some ⟨p, .made⟩ => some (s.setJob r p (if st = nfs4OK then .answered st else .failed st))
    | _ => none
  | .cleanup r =>
    match s.jobs r with
    | some ⟨p, .failed st⟩ =>
      some ({ s with
        tree := removeAll s.tree p
        lost := s.lost ++ s.tree.keys.filter fun q =>
          p <+: q ∧ (s.tree.node q).map Node.attr ≠ some r }.setJob r p (.answered st))
    | _ => none
  | .other p isDir =>
    (makeAt s.tree s.count p isDir).map fun t => { s with tree := t, count := s.count + 1 }

/-- Nobody has put anything into the directory that is about to be removed. -/
def EmptyAtCleanup (s : State) : Event → Prop
  | .cleanup r => ∀ p st, s.jobs r = some ⟨p, .failed st⟩ → ∀ x, s.tree.node (p ++ [x]) = none
  | _ => True

def Stage.Owns : Stage → Prop
  | .made | .failed _ => True
  | _ => False

/-- A request creates its target only, and has it until it is answered. -/
structure Invariant (s : State) : Prop where
  nodes : ∀ p n, s.tree.node p = some n → n.attr < s.count
  jobs : ∀ r j, s.jobs r = some j → r < s.count ∧ j.target ≠ []
  alone : ∀ r j, s.jobs r = some j → ∀ p n, s.tree.node p = some n → n.attr = r → p = j.target
  own : s.lost = [] → ∀ r j, s.jobs r = some j → j.stage.Owns →
    ∃ n, s.tree.node j.target = some n ∧ n.attr = r

theorem start_invariant : Invariant start where
  nodes p n h := by
    cases p with
    | nil =>
      cases h
      exact Nat.zero_lt_one
    | cons => cases h
  jobs := nofun
  alone := nofun
  own := nofun

variable {p : Path}

theorem makeAt_spec {t t' r isDir} (h : makeAt t r p isDir = some t') :
    (∃ n, t'.node p = some n ∧ n.attr = r) ∧
      (∀ q n, t.node q = some n → t'.node q = some n) ∧
      ∀ q n, t'.node q = some n → t.node q = some n ∨ q = p ∧ n.attr = r := by
  unfold makeAt at h
  split at h
  · rename_i hfree
    cases h
    have hattr : (if isDir then Node.dir r else Node.file r ()).attr = r := by split <;> rfl
    refine ⟨⟨_, Function.update_self .., hattr⟩, fun q n hn => ?_, fun q n hn => ?_⟩
    · rw [← hn]
      refine Function.update_of_ne ?_ _ _
      rintro rfl
      rw [hfree.2.2] at hn
      cases hn
    rcases eq_or_ne q p with rfl | hq
    · simp only [Tree.insert, Function.update_self] at hn
      cases hn
      exact .inr ⟨rfl, hattr⟩
    · simp only [Tree.insert, Function.update_of_ne hq] at hn
      exact .inl hn
  · cases h

theorem removeAll_node {t} (hp : p ≠ []) (q : Path) :
    (removeAll t p).node q = if p <+: q then none else t.node q := by
  simp only [removeAll, dif_pos hp, Tree.removeAll]

variable {s s' : State}

theorem Invariant.act (h : Invariant s) {r} (hp : p ≠ [])
    (hr : r = s.count ∨ ∃ old, s.jobs r = some ⟨p, old⟩)
    (hcount : r < s'.count ∧ s.count ≤ s'.count)
    (hjobs : ∀ k j, s'.jobs k = some j → s.jobs k = some j ∧ k ≠ r ∨
      k = r ∧ j.target = p ∧
        (j.stage.Owns → s'.lost = [] → ∃ n, s'.tree.node p = some n ∧ n.attr = r))
    (hnodes : ∀ q n, s'.tree.node q = some n → s.tree.node q = some n ∨ q = p ∧ n.attr = r)
    (hkept : s'.lost = [] → s.lost = [] ∧
      ∀ q n, s.tree.node q = some n → n.attr ≠ r → s'.tree.node q = some n) :
    Invariant s' := by
  refine ⟨fun q n hn => ?_, fun k j hk => ?_, fun k j hk q n hn ha => ?_, fun hl k j hk ho => ?_⟩
  · rcases hnodes q n hn with hold | ⟨-, ha⟩
    · exact lt_of_lt_of_le (h.nodes q n hold) hcount.2
    · exact ha ▸ hcount.1
  · rcases hjobs k j hk with ⟨hk, -⟩ | ⟨rfl, ht, -⟩
    · exact ⟨lt_of_lt_of_le (h.jobs k j hk).1 hcount.2, (h.jobs k j hk).2⟩
    · exact ⟨hcount.1, ht ▸ hp⟩
  · rcases hjobs k j hk with ⟨hk, hkr⟩ | ⟨rfl, ht, -⟩
    · rcases hnodes q n hn with hold | ⟨-, har⟩
      · exact h.alone k j hk q n hold ha
      · exact absurd (ha.symm.trans har) hkr
    · rcases hnodes q n hn with hold | ⟨hq, -⟩
      · rcases hr with rfl | ⟨old, hr⟩
        · exact absurd (h.nodes q n hold) (by omega)
        · exact ht ▸ h.alone k _ hr q n hold ha
      · exact ht ▸ hq
  · rcases hjobs k j hk with ⟨hk, hkr⟩ | ⟨rfl, ht, hown⟩
    · obtain ⟨n, hn, ha⟩ := h.own (hkept hl).1 k j hk ho
      exact ⟨n, (hkept hl).2 _ n hn (ha ▸ hkr), ha⟩
    · exact ht ▸ hown ho hl

theorem setJob_jobs {r stage k j} (h : (s.setJob r p stage).jobs k = some j) :
    s.jobs k = some j ∧ k ≠ r ∨ k = r ∧ j = ⟨p, stage⟩ := by
  rcases eq_or_ne k r with rfl | hk
  · simp only [State.setJob, Function.update_self] at h
    exact .inr ⟨rfl, (Option.some.inj h).symm⟩
  · simp only [State.setJob, Function.update_of_ne hk] at h
    exact .inl ⟨h, hk⟩

theorem Invariant.setJob (h : Invariant s) {r old stage}
    (hr : s.jobs r = some ⟨p, old⟩) {t lost}
    (hnodes : ∀ q n, t.node q = some n → s.tree.node q = some n ∨ q = p ∧ n.attr = r)
    (hkept : lost = [] → s.lost = [] ∧
      ∀ q n, s.tree.node q = some n → n.attr ≠ r → t.node q = some n)
    (hown : stage.Owns → lost = [] → ∃ n, t.node p = some n ∧ n.attr = r) :
    Invariant ({ s with tree := t, lost := lost }.setJob r p stage) := by
  obtain ⟨hlt, hp⟩ := h.jobs r _ hr
  refine h.act hp (.inr ⟨old, hr⟩) ⟨hlt, le_refl _⟩ (fun k j hk => ?_) hnodes hkept
  refine (setJob_jobs hk).imp_right fun hkr => ?_
  obtain ⟨rfl, rfl⟩ := hkr
  exact ⟨rfl, rfl, hown⟩

theorem next_invariant (e : Event) (h : Invariant s) (he : next s e = some s') : Invariant s' := by
  cases e with
  | check dir name args =>
    cases he
    refine h.act (p := dir ++ [name]) (by simp) (.inl rfl) ⟨Nat.lt_succ_self _, Nat.le_succ _⟩
      (fun k j hk => ?_) (fun _ _ => .inl) fun hl => ⟨hl, fun _ _ hn _ => hn⟩
    refine (setJob_jobs hk).imp_right fun hkr => ?_
    obtain ⟨rfl, rfl⟩ := hkr
    refine ⟨rfl, rfl, fun ho => absurd ho ?_⟩
    dsimp only
    split <;> exact id
  | mkdir r fault =>
    simp only [next] at he
    split at he
    · rename_i p hr
      split at he
      · cases he
        exact h.setJob hr (fun _ _ => .inl) (fun hl => ⟨hl, fun _ _ hn _ => hn⟩) nofun
      · cases he
        exact h.setJob hr (fun _ _ => .inl) (fun hl => ⟨hl, fun _ _ hn _ => hn⟩) nofun
      · rename_i t ht
        cases he
        obtain ⟨hnew, hold, hnode⟩ := makeAt_spec ht
        exact h.setJob hr hnode (fun hl => ⟨hl, fun q n hn _ => hold q n hn⟩) fun _ _ => hnew
    · cases he
  | applySetAttrs r st =>
    simp only [next] at he
    split at he
    · rename_i p hr
      cases he
      exact h.setJob hr (fun _ _ => .inl) (fun hl => ⟨hl, fun _ _ hn _ => hn⟩)
        fun _ hl => h.own hl r _ hr trivial
    · cases he
  | cleanup r =>
    simp only [next] at he
    split at he
    · rename_i p st hr
      cases he
      have hnode := removeAll_node (t := s.tree) (h.jobs r _ hr).2
      refine h.setJob hr (fun q n hn => .inl ?_) (fun hl => ?_) nofun
      · rw [hnode] at hn
        split at hn
        · cases hn
        · exact hn
      rw [List.append_eq_nil_iff, List.filter_eq_nil_iff] at hl
      refine ⟨hl.1, fun q n hn ha => ?_⟩
      rw [hnode, if_neg, hn]
      intro hpq
      have hq : q ≠ [] := fun h0 => (h.jobs r _ hr).2 (List.prefix_nil.1 (h0 ▸ hpq))
      refine hl.2 q ((s.tree.mem_keys q).2 ⟨hq, by rw [hn]; rfl⟩) ?_
      simpa [hn, hpq] using ha
    · cases he
  | other p isDir =>
    obtain ⟨t, ht, rfl⟩ := Option.map_eq_some_iff.1 he
    obtain ⟨-, hold, hnode⟩ := makeAt_spec ht
    have hp : p ≠ [] := by
      rintro rfl
      simp [makeAt] at ht
    exact h.act hp (.inl rfl) ⟨Nat.lt_succ_self _, Nat.le_succ _⟩
      (fun k j hk => .inl ⟨hk, Nat.ne_of_lt (h.jobs k j hk).1⟩) hnode
      fun hl => ⟨hl, fun q n hn _ => hold q n hn⟩

theorem next_lost_iff (e : Event) (h : Invariant s) (hl : s.lost = []) (he : next s e = some s') :
    s'.lost = [] ↔ EmptyAtCleanup s e := by
  cases e with
  | check dir name args =>
    cases he
    exact iff_of_true hl trivial
  | mkdir r fault =>
    refine iff_of_true ?_ trivial
    simp only [next] at he
    split at he
    · split at he <;> cases he <;> exact hl
    · cases he
  | applySetAttrs r st =>
    refine iff_of_true ?_ trivial
    simp only [next] at he
    split at he
    · cases he
      exact hl
    · cases he
  | cleanup r =>
    simp only [next] at he
    split at he
    · rename_i p st hr
      cases he
      simp only [State.setJob, hl, List.nil_append, EmptyAtCleanup, List.filter_eq_nil_iff,
        decide_eq_true_eq, not_and, not_not]
      constructor
      · intro hnone p' st' hr' x
        obtain ⟨rfl, -⟩ : p = p' ∧ Stage.failed st = .failed st' := by simpa [hr] using hr'
        by_contra hx
        obtain ⟨n, hn⟩ := Option.ne_none_iff_exists'.1 hx
        have hmem : p ++ [x] ∈ s.tree.keys := (s.tree.mem_keys _).2 ⟨by simp, by rw [hn]; rfl⟩
        have ha := hnone _ hmem (List.prefix_append _ _)
        rw [hn, Option.map_some, Option.some_inj] at ha
        simpa using h.alone r _ hr _ n hn ha
      rintro hempty q hq ⟨below, rfl⟩
      cases below with
      | nil =>
        obtain ⟨n, hn, ha⟩ := h.own hl r _ hr trivial
        rw [List.append_nil, hn, Option.map_some, ha]
      | cons x below =>
        have hsome := ((s.tree.mem_keys _).1 hq).2
        rw [List.append_cons] at hsome
        have hx := s.tree.isSome_of_append hsome
        rw [hempty p st hr x] at hx
        cases hx
    · cases he
  | other p isDir =>
    obtain ⟨t, -, rfl⟩ := Option.map_eq_some_iff.1 he
    exact iff_of_true hl trivial

/-- In the runs in which every directory that is removed again is still empty, no CREATE removes what
another request has created, and one that removes a directory with something in it does. -/
theorem failed_create_spares_others_iff (es : List Event) (s : State) :
    (Meets next EmptyAtCleanup start es → run next start es = some s → s.lost = []) ∧
      ∀ e s', run next start es = some s → s.lost = [] → next s e = some s' →
        (s'.lost = [] ↔ EmptyAtCleanup s e) := by
  have hkept := kept_iff next (I := Invariant) (P := fun s => s.lost = [])
    (fun s e t hi he => ⟨next_invariant e hi he, fun hl => next_lost_iff e hi hl he⟩)
    start_invariant rfl
  exact ⟨hkept.1 es s, hkept.2 es s⟩

/-- A file is created in the new directory before its attributes turn out not to be settable. -/
def filledBeforeCleanup : List Event :=
  [.check [] "d" nfs4OK, .mkdir 1 none, .other ["d", "f"] false, .applySetAttrs 1 nfs4ErrNotSupp,
    .cleanup 1]

theorem failed_create_removes_file : ∃ s, run next start filledBeforeCleanup = some s ∧
    s.lost = [["d", "f"]] ∧ s.tree.node ["d", "f"] = none ∧
      (s.jobs 1).map Job.stage = some (.answered nfs4ErrNotSupp) :=
  exists_run (by decide +kernel) fun _ _ h => h

end NfsCreateCleanup
