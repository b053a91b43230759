import FacetFS.NfsRename

/-! # What an operation can do to the store

Every operation but the installations of OPEN and OPEN_DOWNGRADE is a sequence of a few kinds of
change to the tables and to the set of confirmed clients. Invariants of interleaved requests
are proved once for each kind. -/
namespace NfsStoreChange

open NfsSeqid NfsLockRange GroupIndex NfsStore NfsOps NfsOutcomes NfsRename NfsTableInvariant
open NfsExclusion (Request step step_acts)
open Function (update update_of_ne)

/-- Lock states and delegations are dropped, or taken over from a client that has state.
Stateids lose their owner only with a lock state or once they are closed; new ones are fresh. -/
structure Inherits (st st' : Store) : Prop where
  lockKeys : ∀ l ∈ st'.locks, l ∈ st.locks ∨ (st.nextOther < l ∧ l ≤ st'.nextOther)
  owners : ∀ k, st'.stateOwners k = st.stateOwners k ∨ k ∈ st.locks ∨
    (st'.stateOwners k = none ∧ k ∉ st'.opens) ∨ (st.nextOther < k ∧ k ≤ st'.nextOther)
  locks : ∀ l ∈ st'.locks, (∃ m ∈ st.locks, (st'.lockState l).client = (st.lockState m).client) ∨
    ∃ k ∈ st.opens, (st'.lockState l).client = (st.openState k).client
  delegs : ∀ d ∈ st'.delegs, d ∈ st.delegs ∧
    (st'.delegation d).client = (st.delegation d).client

inductive Change (st : Store) : Store → Prop where
  /-- The open states and the confirmed clients stay as they are. -/
  | quiet {st' : Store} (confirmed : st'.confirmed = st.confirmed) (opens : st'.opens = st.opens)
      (openState : st'.openState = st.openState) (byPath : st'.byPath = st.byPath)
      (next : st.nextOther ≤ st'.nextOther) (rest : Inherits st st') : Change st st'
  | close {st' : Store} (k : ℕ) (s : OpenState) (confirmed : st'.confirmed = st.confirmed)
      (opens : st'.opens = st.opens.filter (· ≠ k))
      (openState : st'.openState = update st.openState k s)
      (byPath : st'.byPath = drop st.byPath (st.openState k).path k)
      (next : st.nextOther ≤ st'.nextOther) (rest : Inherits st st') : Change st st'
  | release (c : ClientID) : Change st (st.release c)
  | register (id : ClientID) {st' : Store} (confirmed : st'.confirmed = id :: st.confirmed)
      (tables : st'.toTables = st.toTables) (delegs : st'.delegs = st.delegs)
      (delegation : st'.delegation = st.delegation) : Change st st'
  | rename (src dst : Path) (src_ne : src ≠ []) (not_below : ¬ src <+: dst)
      (not_above : ¬ dst <+: src) : Change st (renamePath st src dst)

abbrev Changes : Store → Store → Prop := Relation.ReflTransGen Change

variable {st' : Store}

theorem Inherits.refl_of {st} (hl : st'.locks = st.locks)
    (hs : st'.lockState = st.lockState) (ho : st'.stateOwners = st.stateOwners)
    (hd : st'.delegs = st.delegs) (hg : st'.delegation = st.delegation) : Inherits st st' where
  lockKeys l hm := by
    rw [hl] at hm
    exact .inl hm
  owners k := by
    rw [ho]
    exact .inl rfl
  locks l hm := by
    rw [hl] at hm
    rw [hs]
    exact .inl ⟨l, hm, rfl⟩
  delegs d hm := by
    rw [hd] at hm
    rw [hg]
    exact ⟨hm, rfl⟩

theorem Change.other {st} (ht : st'.toTables = st.toTables) (hc : st'.confirmed = st.confirmed)
    (hd : st'.delegs = st.delegs) (hg : st'.delegation = st.delegation) : Change st st' := by
  refine .quiet hc ?_ ?_ ?_ ?_ (.refl_of ?_ ?_ ?_ hd hg) <;> simp [ht]

theorem Change.delegs {st} (ht : st'.toTables = st.toTables) (hc : st'.confirmed = st.confirmed)
    (hd : ∀ d ∈ st'.delegs, d ∈ st.delegs ∧ (st'.delegation d).client = (st.delegation d).client) :
    Change st st' := by
  refine .quiet hc ?_ ?_ ?_ ?_ ⟨fun l hl => ?_, fun k => ?_, fun l hl => ?_, hd⟩
  · simp [ht]
  · simp [ht]
  · simp [ht]
  · simp [ht]
  · rw [ht] at hl
    exact .inl hl
  · rw [ht]
    exact .inl rfl
  · rw [ht] at hl ⊢
    exact .inl ⟨l, hl, rfl⟩

variable {k : ℕ}

section Moves

variable (st : Store)

theorem closeTables_eq (t : Tables) (o : OwnerRef) (k : ℕ) : ∃ ix owners, closeTables t o k =
        (({ t with
            locks := t.locks.filter (· ∉ t.locks.filter fun l =>
              (t.lockState l).opened = k && (t.lockState l).ranges = [])
            locksByPath := ix
            stateOwners := owners }.removeOpen k).forgetPriorClosed o k).setOpen k
          { t.openState k with seq := (t.openState k).seq + 1 } ∧
      ∀ j ∉ t.locks, owners j = t.stateOwners j := by
  obtain ⟨ix, owners, he, ho, -⟩ := foldl_removeLock Inv.removeLock_forgetOwner_step
    (t.locks.filter fun l => (t.lockState l).opened = k && (t.lockState l).ranges = []) t
  refine ⟨ix, owners, ?_, fun j hj => ho j fun hm => hj (List.mem_filter.1 hm).1⟩
  simp only [closeTables, Tables.removeEmptyLocksForOpen, he]
  rfl

theorem close_change (o : OwnerRef) (k now : ℕ) : Change st (closeState st o k now) := by
  obtain ⟨ix, owners, hclose, ho⟩ := closeTables_eq st.toTables o k
  rw [closeState, hclose]
  refine .close k _ rfl rfl rfl rfl (le_refl _)
    ⟨fun l hl => ?_, fun j => ?_, fun l hl => ?_, fun d hd => ⟨hd, rfl⟩⟩
  · exact .inl (List.mem_filter.1 hl).1
  · by_cases hprior : j ≠ k ∧ owners j = some o ∧ j ∉ st.opens.filter (· ≠ k)
    · exact .inr (.inr (.inl ⟨if_pos hprior, hprior.2.2⟩))
    · by_cases hj : j ∈ st.locks
      · exact .inr (.inl hj)
      · exact .inl ((if_neg hprior).trans (ho j hj))
  · exact .inl ⟨l, (List.mem_filter.1 hl).1, rfl⟩

theorem installLock_change (hk : k ∈ st.opens) {s} (hs : s.client = (st.openState k).client) :
    Change st (st.setTables (st.toTables.installLock s)) := by
  refine .quiet rfl rfl rfl rfl (Nat.le_succ _)
    ⟨fun l hm => ?_, fun j => ?_, fun l hm => ?_, fun d hd => ⟨hd, rfl⟩⟩
  · rcases List.mem_cons.1 hm with rfl | hm
    · exact .inr ⟨Nat.lt_succ_self _, le_refl _⟩
    · exact .inl hm
  · by_cases hnew : j = st.nextOther + 1
    · subst hnew
      exact .inr (.inr (.inr ⟨Nat.lt_succ_self _, le_refl _⟩))
    · left
      simp [Tables.installLock, Store.setTables, hnew]
  · by_cases hnew : l = st.nextOther + 1
    · refine .inr ⟨k, hk, ?_⟩
      simp [Tables.installLock, Store.setTables, hnew, hs]
    · refine .inl ⟨l, (List.mem_cons.1 hm).resolve_left hnew, ?_⟩
      simp [Tables.installLock, Store.setTables, hnew]

theorem setRanges_change (l : ℕ) (rs : List LockRange) : Change st (setRanges st l rs) :=
  .quiet rfl rfl rfl rfl (le_refl _)
    ⟨fun m hm => .inl hm, fun k => .inl rfl, fun m hm => .inl ⟨m, hm, update_field (by rfl) m⟩,
      fun d hd => ⟨hd, rfl⟩⟩

theorem dropLocks_change (o : OwnerRef) : Change st (dropLocks st o) := by
  obtain ⟨ix, owners, he, ho, -⟩ := foldl_removeLock Inv.removeLock_forgetOwner_step
    (st.locks.filter fun l => (st.lockState l).owner = o) st.toTables
  rw [dropLocks, he]
  refine .quiet rfl rfl rfl rfl (le_refl _)
    ⟨fun l hl => .inl (List.mem_filter.1 hl).1, fun k => ?_,
      fun l hl => .inl ⟨l, (List.mem_filter.1 hl).1, rfl⟩, fun d hd => ⟨hd, rfl⟩⟩
  by_cases hk : k ∈ st.locks
  · exact .inr (.inl hk)
  · exact .inl (ho k fun hm => hk (List.mem_filter.1 hm).1)

variable {st}

theorem Change.renews (h : Renews st st') : Change st st' := by
  obtain ⟨_, _, _, -, rfl⟩ := h
  exact .other rfl rfl rfl rfl

theorem Change.move (h : Move st st') : Change st st' := by
  cases h with
  | renews h => exact .renews h
  | setClientID =>
    unfold Store.setClientID
    split <;> exact .other rfl rfl rfl rfl
  | register id f => exact .register id rfl rfl rfl rfl
  | books => exact .other rfl rfl rfl rfl
  | drop d => exact .delegs rfl rfl fun _ he => ⟨(List.mem_filter.1 he).1, rfl⟩
  | mark d now => exact .delegs rfl rfl fun e he => ⟨he, update_field (by rfl) e⟩
  | release c => exact .release c
  | close o k now => exact close_change st o k now
  | lock k o rng hk => exact installLock_change st hk rfl
  | ranges l rs => exact setRanges_change st l rs
  | dropLocks o => exact dropLocks_change st o

theorem changes_of_moves (h : Moves st st') : Changes st st' :=
  Moves.rel (fun _ => .refl) (fun h h' => h.trans h') (fun h => .single (.move h)) h

end Moves

/-- The operations that are a sequence of changes when run as one step. -/
def Request.atomic : Request → Bool
  | .openFile .. => false
  | .openDowngrade .. => false
  | _ => true

theorem step_moves (st : Store) {r} (hr : Request.atomic r = true) : Moves st (step st r) := by
  refine (step_acts st r ?_ ?_).moves
  · rintro now fh a env rfl
    cases hr
  · rintro now fh a file rfl
    cases hr

theorem step_changes (st : Store) {r} (hr : Request.atomic r = true) : Changes st (step st r) :=
  changes_of_moves (step_moves st hr)

section Release

theorem foldl_dropDelegation (ds : List ℕ) (st : Store) :
    (ds.foldl Store.dropDelegation st).confirmed = st.confirmed ∧
      (ds.foldl Store.dropDelegation st).delegs = st.delegs.filter (· ∉ ds) ∧
      (ds.foldl Store.dropDelegation st).delegation = st.delegation := by
  induction ds generalizing st with
  | nil => simp
  | cons d ds ih =>
    obtain ⟨hc, hd, hg⟩ := ih (st.dropDelegation d)
    rw [List.foldl_cons, hc, hd, hg]
    exact ⟨rfl, filter_ne_not_mem st.delegs ds d, rfl⟩

/-- A release leaves no trace of the client: not among the confirmed, and with no state. -/
theorem release_spec (st : Store) (c : ClientID) :
    (st.release c).confirmed = st.confirmed.filter (· ≠ c) ∧
      (st.release c).delegs = st.delegs.filter (fun d => !decide ((st.delegation d).client = c)) ∧
      (st.release c).delegation = st.delegation := by
  obtain ⟨hc, hd, hg⟩ := foldl_dropDelegation
    (st.delegs.filter fun d => (st.delegation d).client = c)
    (((st.unregister c).setTables (st.toTables.release c)).setClient c
      { ((st.unregister c).setTables (st.toTables.release c)).client c with opens := 0 })
  simp only [Store.release, Store.dropDelegations]
  refine ⟨hc, ?_, hg⟩
  rw [← filter_not_mem_filter]
  exact hd

end Release

/-- What holds before a sequence of changes and is kept by each of them holds after it. -/
theorem Changes.keeps {P : Store → Prop} (h : ∀ {st st'}, Change st st' → P st → P st')
    {st : Store} (hc : Changes st st') (hp : P st) : P st' := by
  induction hc with
  | refl => exact hp
  | tail _ hstep ih => exact h hstep ih

/-- The part of the open table that holds whatever is interleaved. -/
structure Indexed (t : Tables) : Prop where
  bound : ∀ k ∈ t.opens, k ≤ t.nextOther
  index : Indexes t.byPath t.opens fun k => (t.openState k).path
  client : ∀ k ∈ t.opens, (t.openState k).owner.client = (t.openState k).client

variable {t : Tables}

theorem Indexed.findOpen_some (h : Indexed t) {p o}
    (hk : t.findOpen p o = some k) : k ∈ t.opens ∧ (t.openState k).owner = o :=
  ⟨((h.index.mem p k).1 (List.mem_of_find?_eq_some hk)).1, by simpa using List.find?_some hk⟩

theorem Indexed.bumpNext (h : Indexed t) {n} (hn : t.nextOther ≤ n) :
    Indexed { t with nextOther := n } :=
  ⟨fun k hk => le_trans (h.bound k hk) hn, h.index, h.client⟩

theorem Indexed.installOpen (h : Indexed t) {s}
    (hs : s.owner.client = s.client) : Indexed (t.installOpen s) := by
  refine ⟨List.forall_mem_cons.2 ⟨le_rfl, fun k hk => (h.bound k hk).trans (Nat.le_succ _)⟩, ?_,
    forall_install (fun _ (s : OpenState) => s.owner.client = s.client) hs h.client⟩
  exact h.index.install fun hm => Nat.not_succ_le_self _ (h.bound _ hm)

theorem Indexed.setOpen (h : Indexed t) {s}
    (hp : s.path = (t.openState k).path) (ho : s.owner = (t.openState k).owner)
    (hc : s.client = (t.openState k).client) : Indexed (t.setOpen k s) := by
  refine ⟨h.bound, h.index.congr fun j _ => update_field hp j, fun j hj => ?_⟩
  have hj' := h.client j hj
  rw [← update_field (f := OpenState.owner) ho j] at hj'
  exact hj'.trans (update_field hc j).symm

theorem renamePath_path {st} (h : Indexed st.toTables) (src dst : Path) (hk : k ∈ st.opens) :
    ((renamePath st src dst).openState k).path =
      (movedPath src dst (st.openState k).path).getD (st.openState k).path := by
  simp only [renamePath]
  split
  · rfl
  rename_i hm
  have hkey := (h.index.mem _ k).2 ⟨hk, rfl⟩
  have hnone : movedPath src dst (st.openState k).path = none := by
    by_contra hsome
    apply hm
    refine List.mem_flatMap.2 ⟨_, mem_keys_of_mem_members hkey, ?_⟩
    rwa [if_pos (Option.isSome_iff_ne_none.2 hsome)]
  rw [hnone]
  rfl

theorem renamePath_openState (st : Store) (src dst : Path) (k : ℕ) :
    ∃ p, (renamePath st src dst).openState k = { st.openState k with path := p } := by
  simp only [renamePath]
  split
  · exact ⟨_, rfl⟩
  · exact ⟨_, rfl⟩

theorem Indexed.change {st} (hc : Change st st') (h : Indexed st.toTables) :
    Indexed st'.toTables := by
  cases hc with
  | quiet _ ho hs hb hn _ =>
    refine ⟨fun k hk => ?_, ?_, fun k hk => ?_⟩
    · rw [ho] at hk
      exact le_trans (h.bound k hk) hn
    · rw [hb, ho, hs]
      exact h.index
    · rw [ho] at hk
      rw [hs]
      exact h.client k hk
  | close k s _ ho hs hb hn _ =>
    have hmem : ∀ j ∈ st'.opens, j ∈ st.opens ∧ j ≠ k := by
      intro j hj
      rw [ho] at hj
      simpa using List.mem_filter.1 hj
    refine ⟨fun j hj => ?_, ?_, fun j hj => ?_⟩
    · exact le_trans (h.bound j (hmem j hj).1) hn
    · rw [hb, ho, hs]
      apply (h.index.drop rfl).congr
      intro j hj
      have hne : j ≠ k := by simpa using (List.mem_filter.1 hj).2
      rw [update_of_ne hne]
    · rw [hs, update_of_ne (hmem j hj).2]
      exact h.client j (hmem j hj).1
  | release c =>
    obtain ⟨ix, ix', owners, he, -, hi, -⟩ := release_eq st.toTables c
    rw [Store.release_tables, he]
    exact ⟨fun k hk => h.bound k (List.mem_filter.1 hk).1, hi h.index,
      fun k hk => h.client k (List.mem_filter.1 hk).1⟩
  | register id _ ht _ _ =>
    rw [ht]
    exact h
  | rename src dst hs h₁ h₂ =>
    refine ⟨h.bound, ?_, fun k hk => ?_⟩
    · apply (h.index.regroup (fun p q => movedPath_stays hs h₁ h₂)).congr
      intro k hk
      exact renamePath_path h src dst hk
    · obtain ⟨p, hp⟩ := renamePath_openState st src dst k
      rw [hp]
      exact h.client k hk

theorem Change.openState {st} (hc : Change st st') (hk : k ∈ st'.opens) :
    k ∈ st.opens ∧ ∃ p, st'.openState k = { st.openState k with path := p } := by
  cases hc with
  | quiet _ ho hs _ _ _ =>
    rw [ho] at hk
    rw [hs]
    exact ⟨hk, _, rfl⟩
  | close j s _ ho hs _ _ _ =>
    rw [ho] at hk
    obtain ⟨hk, hne⟩ := List.mem_filter.1 hk
    rw [hs, update_of_ne (by simpa using hne)]
    exact ⟨hk, _, rfl⟩
  | release c =>
    obtain ⟨ix, ix', owners, he, -⟩ := release_eq st.toTables c
    have ht := Store.release_tables st c
    rw [he] at ht
    rw [ht] at hk ⊢
    exact ⟨(List.mem_filter.1 hk).1, _, rfl⟩
  | register id _ ht _ _ =>
    rw [ht] at hk ⊢
    exact ⟨hk, _, rfl⟩
  | rename src dst => exact ⟨hk, renamePath_openState st src dst k⟩

theorem Change.nextOther_le {st} (hc : Change st st') : st.nextOther ≤ st'.nextOther := by
  cases hc with
  | quiet _ _ _ _ hn _ => exact hn
  | close _ _ _ _ _ _ hn _ => exact hn
  | release c =>
    obtain ⟨ix, ix', owners, he, -⟩ := release_eq st.toTables c
    rw [Store.release_tables, he]
  | register id _ ht _ _ => rw [ht]
  | rename src dst => exact le_refl _

/-- The owner recorded for a stateid: that of the open state, for the stateids issued. -/
structure Owned (t : Tables) : Prop where
  owner : ∀ k ∈ t.opens, t.stateOwners k = some (t.openState k).owner
  known : ∀ k o, t.stateOwners k = some o → k ≤ t.nextOther
  lockBound : ∀ l ∈ t.locks, l ≤ t.nextOther
  apart : ∀ l ∈ t.locks, l ∉ t.opens

theorem Owned.inherits {st} (hi : Indexed st.toTables) (h : Owned st.toTables)
    (hn : st.nextOther ≤ st'.nextOther)
    (hopen : ∀ k ∈ st'.opens, k ∈ st.opens ∧ st'.openState k = st.openState k)
    (hin : Inherits st st') : Owned st'.toTables := by
  refine ⟨fun k hk => ?_, fun k o hs => ?_, fun l hl => ?_, fun l hl hk => ?_⟩
  · obtain ⟨hlive, he⟩ := hopen k hk
    have hb := hi.bound k hlive
    rcases hin.owners k with hs | hl | ⟨-, hdead⟩ | ⟨hfresh, -⟩
    · rw [hs, he]
      exact h.owner k hlive
    · exact absurd hlive (h.apart k hl)
    · exact absurd hk hdead
    · omega
  · rcases hin.owners k with he | hl | ⟨hnone, -⟩ | ⟨-, hb⟩
    · rw [he] at hs
      exact le_trans (h.known k o hs) hn
    · exact le_trans (h.lockBound k hl) hn
    · rw [hnone] at hs
      cases hs
    · exact hb
  · rcases hin.lockKeys l hl with hold | ⟨-, hb⟩
    · exact le_trans (h.lockBound l hold) hn
    · exact hb
  · obtain ⟨hlive, -⟩ := hopen l hk
    rcases hin.lockKeys l hl with hold | ⟨hfresh, -⟩
    · exact h.apart l hold hlive
    · have hb := hi.bound l hlive
      omega

theorem Owned.release (hi : Indexed t) (h : Owned t) (c : ClientID) : Owned (t.release c) := by
  obtain ⟨ix, ix', owners, he, ho, -, -, hsub⟩ := release_eq t c
  rw [he]
  refine ⟨fun k hk => ?_, fun k o hs => ?_, fun l hl => ?_, fun l hl hk => ?_⟩
  · obtain ⟨hlive, hkept⟩ := List.mem_filter.1 hk
    have hne : (t.openState k).client ≠ c := by simpa using hkept
    refine ho k _ (fun _ => hne) (fun hl => absurd hlive (h.apart k hl)) (h.owner k hlive) ?_
    rwa [hi.client k hlive]
  · rcases hsub k o hs with hk | hl | hs
    · exact hi.bound k hk
    · exact h.lockBound k hl
    · exact h.known k o hs
  · exact h.lockBound l (List.mem_filter.1 hl).1
  · exact h.apart l (List.mem_filter.1 hl).1 (List.mem_filter.1 hk).1

theorem Owned.change {st} (hi : Indexed st.toTables) (hc : Change st st')
    (h : Owned st.toTables) : Owned st'.toTables := by
  have hn := hc.nextOther_le
  cases hc with
  | quiet _ ho hs _ _ hin =>
    apply h.inherits hi hn _ hin
    intro k hk
    rw [ho] at hk
    rw [hs]
    exact ⟨hk, rfl⟩
  | close j s _ ho hs _ _ hin =>
    apply h.inherits hi hn _ hin
    intro k hk
    rw [ho] at hk
    obtain ⟨hk, hne⟩ := List.mem_filter.1 hk
    rw [hs, update_of_ne (by simpa using hne)]
    exact ⟨hk, rfl⟩
  | release c =>
    rw [Store.release_tables]
    exact h.release hi c
  | register id _ ht _ _ =>
    rw [ht]
    exact h
  | rename src dst =>
    refine ⟨fun k hk => ?_, h.known, h.lockBound, h.apart⟩
    obtain ⟨p, hp⟩ := renamePath_openState st src dst k
    rw [hp]
    exact h.owner k hk

theorem Owned.bumpNext (h : Owned t) {n} (hn : t.nextOther ≤ n) : Owned { t with nextOther := n } :=
  ⟨h.owner, fun k o hs => le_trans (h.known k o hs) hn,
    fun l hl => le_trans (h.lockBound l hl) hn, h.apart⟩

theorem Owned.installOpen (hi : Indexed t) (h : Owned t) (s : OpenState) :
    Owned (t.installOpen s) := by
  refine ⟨forall_install (fun k (q : OpenState) => (t.installOpen s).stateOwners k = some q.owner)
    (by simp [Tables.installOpen]) fun k hk => ?_, forall_some_update
    (fun k _ o ho => (h.known k o ho).trans (Nat.le_succ _)) fun _ _ => le_rfl, fun l hl => ?_,
    fun l hl hk => ?_⟩
  · have hb := hi.bound k hk
    have hne : k ≠ t.nextOther + 1 := by omega
    simpa [Tables.installOpen, hne] using h.owner k hk
  · exact le_trans (h.lockBound l hl) (Nat.le_succ _)
  · have hb := h.lockBound l hl
    rcases List.mem_cons.1 hk with rfl | hk
    · omega
    · exact h.apart l hl hk

theorem Owned.setOpen (h : Owned t) {s}
    (ho : s.owner = (t.openState k).owner) : Owned (t.setOpen k s) := by
  refine ⟨fun j hj => ?_, h.known, h.lockBound, h.apart⟩
  exact (h.owner j hj).trans (congrArg some (update_field ho j).symm)

/-- Every state in the store belongs to a confirmed client. -/
structure Registered (st : Store) : Prop where
  opens : ∀ k ∈ st.opens, (st.openState k).client ∈ st.confirmed
  locks : ∀ l ∈ st.locks, (st.lockState l).client ∈ st.confirmed
  delegs : ∀ d ∈ st.delegs, (st.delegation d).client ∈ st.confirmed

theorem Registered.inherits {st} (h : Registered st)
    (hc : st'.confirmed = st.confirmed) (hi : Inherits st st') :
    (∀ l ∈ st'.locks, (st'.lockState l).client ∈ st'.confirmed) ∧
      ∀ d ∈ st'.delegs, (st'.delegation d).client ∈ st'.confirmed := by
  rw [hc]
  constructor
  · intro l hl
    rcases hi.locks l hl with ⟨m, hm, he⟩ | ⟨k, hk, he⟩
    · rw [he]
      exact h.locks m hm
    · rw [he]
      exact h.opens k hk
  · intro d hd
    obtain ⟨hd', he⟩ := hi.delegs d hd
    rw [he]
    exact h.delegs d hd'

theorem Registered.change {st} (hc : Change st st') (h : Registered st) : Registered st' := by
  cases hc with
  | quiet hc ho hs hb hn hi =>
    obtain ⟨hl, hd⟩ := h.inherits hc hi
    refine ⟨fun k hk => ?_, hl, hd⟩
    rw [ho] at hk
    rw [hs, hc]
    exact h.opens k hk
  | close k s hc ho hs hb hn hi =>
    obtain ⟨hl, hd⟩ := h.inherits hc hi
    refine ⟨fun j hj => ?_, hl, hd⟩
    rw [ho] at hj
    obtain ⟨hj, hne⟩ := List.mem_filter.1 hj
    rw [hs, update_of_ne (by simpa using hne), hc]
    exact h.opens j hj
  | release c =>
    obtain ⟨ix, ix', owners, he, -, -, -⟩ := release_eq st.toTables c
    obtain ⟨hc, hd, hg⟩ := release_spec st c
    have ht := Store.release_tables st c
    rw [he] at ht
    refine ⟨fun k hk => ?_, fun l hl => ?_, fun d hdm => ?_⟩
    · rw [ht] at hk ⊢
      obtain ⟨hk, hne⟩ := List.mem_filter.1 hk
      rw [hc]
      exact List.mem_filter.2 ⟨h.opens k hk, by simpa using hne⟩
    · rw [ht] at hl ⊢
      obtain ⟨hl, hne⟩ := List.mem_filter.1 hl
      rw [hc]
      exact List.mem_filter.2 ⟨h.locks l hl, by simpa using hne⟩
    · rw [hd] at hdm
      obtain ⟨hdm, hne⟩ := List.mem_filter.1 hdm
      rw [hc, hg]
      exact List.mem_filter.2 ⟨h.delegs d hdm, by simpa using hne⟩
  | register id hc ht hd hg =>
    refine ⟨fun k hk => ?_, fun l hl => ?_, fun d hdm => ?_⟩
    · rw [ht] at hk ⊢
      rw [hc]
      exact List.mem_cons_of_mem _ (h.opens k hk)
    · rw [ht] at hl ⊢
      rw [hc]
      exact List.mem_cons_of_mem _ (h.locks l hl)
    · rw [hd] at hdm
      rw [hc, hg]
      exact List.mem_cons_of_mem _ (h.delegs d hdm)
  | rename src dst =>
    refine ⟨fun k hk => ?_, fun l hl => ?_, fun d hdm => ?_⟩
    · obtain ⟨p, hp⟩ := renamePath_openState st src dst k
      rw [hp]
      exact h.opens k hk
    · have hcl : ((renamePath st src dst).lockState l).client = (st.lockState l).client := by
        simp only [renamePath]
        split <;> rfl
      rw [hcl]
      exact h.locks l hl
    · have hcl : ((renamePath st src dst).delegation d).client = (st.delegation d).client := by
        simp only [renamePath]
        split <;> rfl
      rw [hcl]
      exact h.delegs d hdm

end NfsStoreChange
