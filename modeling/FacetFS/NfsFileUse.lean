import FacetFS.IssuedNumbers
import FacetFS.NfsData
import FacetFS.NfsOpenBacking

/-! # The file behind an I/O request

READ and WRITE find their file in one critical section and use it after the store mutex is free.
An OPEN or an OPEN_DOWNGRADE of the same state may put another file in its place meanwhile, and
closes the one it replaces. -/
namespace NfsFileUse

open EventSystem
open NfsSeqid NfsLockRange GroupIndex NfsStore NfsOps NfsOutcomes NfsStoreChange NfsTableInvariant
open NfsData
open IssuedNumbers (Placed)
open NfsInterleaving hiding Event next start
open NfsExclusion (Request step)
open Function (update update_of_ne update_self)

section Closing

/-- Open states only leave, and the files that are closed are theirs. -/
structure Retires (st st' : Store) : Prop where
  opens : ∀ k ∈ st'.opens, k ∈ st.opens ∧ (st'.openState k).file = (st.openState k).file
  closed : ∃ l, st'.closed = l ++ st.closed ∧
    ∀ f ∈ l, ∃ k ∈ st.opens, k ∉ st'.opens ∧ (st.openState k).file = some f

variable {st st₁ st₂ : Store}

theorem Retires.refl (st : Store) : Retires st st :=
  ⟨fun _ hk => ⟨hk, rfl⟩, [], rfl, by simp⟩

theorem Retires.trans (h : Retires st st₁) (h' : Retires st₁ st₂) : Retires st st₂ := by
  obtain ⟨l, hl, hfiles⟩ := h.closed
  obtain ⟨l', hl', hfiles'⟩ := h'.closed
  refine ⟨fun k hk => ?_, l' ++ l, ?_, fun f hf => ?_⟩
  · obtain ⟨hk₁, he₁⟩ := h'.opens k hk
    obtain ⟨hk₀, he₀⟩ := h.opens k hk₁
    exact ⟨hk₀, he₁.trans he₀⟩
  · rw [hl', hl, List.append_assoc]
  rcases List.mem_append.1 hf with hf | hf
  · obtain ⟨k, hk, hgone, hfile⟩ := hfiles' f hf
    obtain ⟨hk₀, he⟩ := h.opens k hk
    exact ⟨k, hk₀, hgone, by rw [← he, hfile]⟩
  · obtain ⟨k, hk, hgone, hfile⟩ := hfiles f hf
    exact ⟨k, hk, fun hk₂ => hgone (h'.opens k hk₂).1, hfile⟩

theorem Retires.quiet (hc : Changes st st₁) (he : st₁.closed = st.closed) : Retires st st₁ := by
  refine ⟨fun k hk => ?_, [], by simp [he], by simp⟩
  obtain ⟨hlive, p, hp⟩ := (NfsOpenBacking.Changes.openState hc).2 k hk
  exact ⟨hlive, by rw [hp]⟩

theorem Retires.same (ht : st₁.toTables = st.toTables) (he : st₁.closed = st.closed) :
    Retires st st₁ := by
  refine ⟨fun k hk => ?_, [], by simp [he], by simp⟩
  rw [ht] at hk ⊢
  exact ⟨hk, rfl⟩

theorem Retires.renews (h : Renews st st₁) : Retires st st₁ := .same h.tables h.closed

end Closing

variable {now : ℕ}

section Requests

variable (st : Store)

theorem close_retires (o : OwnerRef) {k} (hk : k ∈ st.opens) (now : ℕ) :
    Retires st (closeState st o k now) := by
  obtain ⟨ix, owners, he, -⟩ := closeTables_eq st.toTables o k
  rw [closeState, he]
  refine ⟨fun j hj => ?_, (st.openState k).file.toList, rfl, fun f hf => ?_⟩
  · obtain ⟨hlive, hne⟩ := List.mem_filter.1 hj
    refine ⟨hlive, congrArg OpenState.file ?_⟩
    exact update_of_ne (of_decide_eq_true hne) _ _
  · refine ⟨k, hk, fun hk' => ?_, Option.mem_toList.1 hf⟩
    have hne := (List.mem_filter.1 hk').2
    simp at hne

theorem release_retires (c : ClientID) : Retires st (st.release c) := by
  obtain ⟨ix, ix', owners, he, -⟩ := release_eq st.toTables c
  have ht := Store.release_tables st c
  rw [he] at ht
  refine ⟨fun k hk => ?_, Store.filesOf st.toTables c, ?_, fun f hf => ?_⟩
  · rw [ht] at hk ⊢
    exact ⟨(List.mem_filter.1 hk).1, rfl⟩
  · have hdrop : ∀ st d, (Store.dropDelegation st d).closed = st.closed := fun _ _ => rfl
    simp only [Store.release, Store.dropDelegations]
    rw [Store.foldl_keeps Store.closed hdrop]
    rfl
  obtain ⟨k, hk, hfile⟩ := List.mem_filterMap.1 hf
  obtain ⟨hlive, hc⟩ := List.mem_filter.1 hk
  refine ⟨k, hlive, fun hk' => ?_, hfile⟩
  rw [ht] at hk'
  have hkept := (List.mem_filter.1 hk').2
  rw [hc] at hkept
  cases hkept

variable {st}

theorem Retires.move {st'} (h : Move st st') : Retires st st' := by
  cases h with
  | renews h => exact .renews h
  | setClientID =>
    unfold Store.setClientID
    split
    · exact .refl st
    · exact .same rfl rfl
  | register => exact .same rfl rfl
  | books => exact .same rfl rfl
  | drop d => exact .same rfl rfl
  | mark d now => exact .same rfl rfl
  | release c => exact release_retires st c
  | close o k now hk => exact close_retires st o hk now
  | lock k o rng hk => exact .quiet (.single (installLock_change st hk rfl)) rfl
  | ranges l rs => exact .quiet (.single (setRanges_change st l rs)) rfl
  | dropLocks o => exact .quiet (.single (dropLocks_change st o)) rfl

theorem retires_of_moves {st'} (h : Moves st st') : Retires st st' :=
  h.rel .refl .trans .move

end Requests

/-- A server with I/O requests under way. A READ or a WRITE that was led to the file of a live
open state is kept with the state and the file it will use. A file is named by the number of
events before it was opened. -/
structure System where
  server : Server
  files : ℕ
  io : ℕ → Option (ℕ × OpenFile)

def start (cfg : Config) : System := ⟨NfsInterleaving.start cfg, 0, fun _ => none⟩

/-- A critical section of the server, or one of the two steps of a READ or a WRITE. -/
inductive Event where
  | critical (e : NfsInterleaving.Event)
  | resolve (slot now : ℕ) (fh : Option Path) (lookup : Except NfsStat Kind) (seq : UInt32)
      (other : Other) (write : Bool)
  | perform (slot : ℕ)

def newFile (n : ℕ) : NfsInterleaving.Event → Bool
  | .openFiles _ _ env =>
    match env.file with
    | .ok h => h = n
    | .error _ => true
  | .downgradeFiles _ (.ok h) => h = n
  | _ => true

def flight (st : Store) (other : Other) :
    Except NfsStat (Option OpenFile) → Option (ℕ × OpenFile)
  | .ok (some f) =>
    (ioHolder st.toTables other).bind fun k => if k ∈ st.opens then some (k, f) else none
  | _ => none

def next (s : System) : Event → Option System
  | .critical e =>
    if newFile s.files e then
      (NfsInterleaving.next s.server e).map fun t => { s with server := t, files := s.files + 1 }
    else none
  | .resolve slot now fh lookup seq other write =>
    if (s.io slot).isSome then none
    else
      let r := ioResolve s.server.store now fh lookup seq other write
      some { s with
        server := { s.server with store := r.2 }
        io := update s.io slot (flight s.server.store other r.1) }
  | .perform slot =>
    if (s.io slot).isSome then some { s with io := update s.io slot none } else none

/-- An I/O request whose state is still open has a file that was not closed. -/
def FilesOpen (s : System) : Prop :=
  ∀ i k f, s.io i = some (k, f) → k ∈ s.server.store.opens → f ∉ s.server.store.closed

/-- The file of every I/O request is the one its state has now. -/
def Current (s : System) : Prop :=
  ∀ i k f, s.io i = some (k, f) → k ∈ s.server.store.opens →
    (s.server.store.openState k).file = some f

/-- A file an I/O request was led to is still that of the state, or it was closed. -/
def Tracked (s : System) : Prop :=
  ∀ i k f, s.io i = some (k, f) → k ≤ s.server.store.nextOther ∧
    (k ∈ s.server.store.opens → (s.server.store.openState k).file = some f ∨
      f ∈ s.server.store.closed)

variable {env : OpenEnv}

section Places

/-- Where a file can be: with an open state, with an OPEN or OPEN_DOWNGRADE that opened it and
did not install it yet, or closed. -/
inductive Place where
  | live (k : ℕ)
  | slot (i : ℕ)
  | closed
  deriving DecidableEq

def handleOf : Pending → Option ℕ
  | .opened _ handle => handle
  | .downOpened _ _ handle => handle
  | _ => none

def Holds (s : Server) : Place → ℕ → Prop
  | .live k, h => k ∈ s.store.opens ∧ ∃ f, (s.store.openState k).file = some f ∧ f.handle = h
  | .slot i, h => ∃ p, s.pending i = some p ∧ handleOf p = some h
  | .closed, h => ∃ f ∈ s.store.closed, f.handle = h

theorem filesOpen_iff {s} (hp : Placed (Holds s.server) s.files) (ht : Tracked s) :
    FilesOpen s ↔ Current s := by
  constructor
  · intro h i k f hi hk
    exact ((ht i k f hi).2 hk).resolve_right (h i k f hi hk)
  · intro h i k f hi hk hclosed
    have hlive : Holds s.server (.live k) f.handle := ⟨hk, f, h i k f hi hk, rfl⟩
    have hgone : Holds s.server .closed f.handle := ⟨f, hclosed, rfl⟩
    cases hp.unique _ _ _ hlive hgone

/-- What the sections before an installation do with files: states retire theirs, a slot may get
the file that was opened now, or that file is closed again. -/
inductive FileStep (n : ℕ) (s s' : Server) : Prop where
  | quiet (slot : ℕ) (store : Retires s.store s'.store)
      (slots : ∀ i h, Holds s' (.slot i) h → Holds s (.slot i) h ∨ (i = slot ∧ h = n))
  | discard (st : Store) (f : OpenFile) (store : Retires s.store st) (fresh : f.handle = n)
      (tables : s'.store.toTables = st.toTables) (closed : s'.store.closed = f :: st.closed)
      (slots : ∀ i h, Holds s' (.slot i) h → Holds s (.slot i) h)

variable {s s' : Server} {n : ℕ}

theorem FileStep.same (store : Retires s.store s'.store) (hp : s'.pending = s.pending) :
    FileStep n s s' := by
  refine .quiet 0 store fun i h hi => .inl ?_
  simpa only [Holds, hp] using hi

theorem holds_update {slot x} (hp : s'.pending = update s.pending slot x) {i h}
    (hi : Holds s' (.slot i) h) : Holds s (.slot i) h ∨ (i = slot ∧ x.bind handleOf = some h) := by
  obtain ⟨p, hip, hh⟩ := hi
  rw [hp] at hip
  by_cases his : i = slot
  · subst his
    rw [update_self] at hip
    exact .inr ⟨rfl, by rw [hip]; exact hh⟩
  · rw [update_of_ne his] at hip
    exact .inl ⟨p, hip, hh⟩

theorem FileStep.slot {slot x} (store : Retires s.store s'.store)
    (hp : s'.pending = update s.pending slot x)
    (hx : x.bind handleOf = none ∨ x.bind handleOf = some n) : FileStep n s s' := by
  refine .quiet slot store fun i h hi => ?_
  rcases holds_update hp hi with hi | ⟨his, hh⟩
  · exact .inl hi
  rcases hx with hx | hx
  · rw [hx] at hh
    cases hh
  · rw [hx] at hh
    exact .inr ⟨his, (Option.some.inj hh).symm⟩

theorem Turn.files {e} (hn : newFile n e = true) (h : Turn s s' e) : FileStep n s s' := by
  cases h with
  | rename src dst hs h₁ h₂ hst hp =>
    refine .same (.quiet (.single ?_) ?_) hp
    · rw [hst]
      exact .rename src dst hs h₁ h₂
    · rw [hst]
      rfl
  | stay hm hp => exact .same (retires_of_moves hm) hp
  | look slot p hr hnew hp =>
    refine .slot (.renews hr) hp (.inl ?_)
    rcases hnew with ⟨o, fh, a, rfl⟩ | ⟨o, fh, a, rfl, -⟩
    · rfl
    · rfl
  | leave slot p _ _ hr hp => exact .slot (.renews hr) hp (.inl rfl)
  | check slot fh a plan _ _ hr hp => exact .slot (.renews hr) hp (.inl rfl)
  | downCheck slot _ _ _ _ _ _ _ _ _ hr _ hp => exact .slot (.renews hr) hp (.inl rfl)
  | fail slot p o _ _ hm hp => exact .slot (retires_of_moves hm) hp (.inl rfl)
  | discard slot now env plan a f st g _ hm hf hst hp =>
    refine .discard st f (retires_of_moves hm) ?_ (hst ▸ rfl) (hst ▸ rfl) fun i h hi => ?_
    · simpa [newFile, hf] using hn
    · exact (holds_update hp hi).resolve_right nofun
  | openFile slot now env plan a handle _ hm hf hp =>
    refine .slot (retires_of_moves hm) hp ?_
    cases handle with
    | none => exact .inl rfl
    | some h =>
      have hh : h = n := by simpa [newFile, hf h rfl] using hn
      exact .inr (congrArg some hh)
  | downOpen slot file o a needOpen handle hold hst hf hp =>
    refine .slot (hst ▸ .refl _) hp ?_
    cases needOpen with
    | false =>
      cases hf
      exact .inl rfl
    | true =>
      cases file with
      | error e => cases hf
      | ok h' =>
        cases hf
        have hh : h' = n := by simpa [newFile] using hn
        exact .inr (congrArg some hh)

/-- A state that is gone has left its file among the closed ones. -/
def retired (opens : List ℕ) : Place → Place
  | .live k => if k ∈ opens then .live k else .closed
  | p => p

theorem Retires.holds (h : Retires s.store s'.store) {p k} (hp : ∀ i, p ≠ .slot i)
    (hh : Holds s' p k) : ∃ q, Holds s q k ∧ p = retired s'.store.opens q := by
  cases p with
  | live j =>
    obtain ⟨hj, f, hf, hk⟩ := hh
    obtain ⟨hj₀, he⟩ := h.opens j hj
    exact ⟨.live j, ⟨hj₀, f, he ▸ hf, hk⟩, (if_pos hj).symm⟩
  | slot i => exact absurd rfl (hp i)
  | closed =>
    obtain ⟨f, hf, hk⟩ := hh
    obtain ⟨l, hl, hfiles⟩ := h.closed
    rw [hl] at hf
    rcases List.mem_append.1 hf with hf | hf
    · obtain ⟨j, hj, hgone, hfile⟩ := hfiles f hf
      exact ⟨.live j, ⟨hj, f, hfile, hk⟩, (if_neg hgone).symm⟩
    · exact ⟨.closed, ⟨f, hf, hk⟩, rfl⟩

theorem FileStep.placed (h : FileStep n s s') (hp : Placed (Holds s) n) :
    Placed (Holds s') (n + 1) := by
  cases h with
  | quiet slot store slots =>
    refine hp.move (.slot slot) (retired s'.store.opens) fun p k hh => ?_
    by_cases hslot : ∃ i, p = .slot i
    · obtain ⟨i, rfl⟩ := hslot
      rcases slots i k hh with hold | ⟨rfl, rfl⟩
      · exact .inr ⟨.slot i, hold, rfl⟩
      · exact .inl ⟨rfl, rfl⟩
    · exact .inr (store.holds (not_exists.1 hslot) hh)
  | discard st f store fresh tables closed slots =>
    refine hp.move .closed (retired st.opens) fun p k hh => ?_
    cases p with
    | live j =>
      obtain ⟨hj, g, hg, hk⟩ := hh
      rw [tables] at hj hg
      have hst : Holds { s' with store := st } (.live j) k := ⟨hj, g, hg, hk⟩
      exact .inr (Retires.holds store (p := .live j) nofun hst)
    | slot i => exact .inr ⟨.slot i, slots i k hh, rfl⟩
    | closed =>
      obtain ⟨g, hg, hk⟩ := hh
      rw [closed] at hg
      rcases List.mem_cons.1 hg with rfl | hg
      · exact .inl ⟨hk.symm.trans fresh, rfl⟩
      · have hst : Holds { s' with store := st } .closed k := ⟨g, hg, hk⟩
        exact .inr (Retires.holds store (p := .closed) nofun hst)

end Places

variable {f : Option OpenFile}

section Installations

variable {s s' : Server}

/-- What an installation does with the file of its request: close it, give it to a new state, or
give it to a state whose file is then closed. -/
inductive InstallStep (f : Option OpenFile) (st st' : Store) : Option ℕ → Prop where
  | refuse (opens : st'.opens = st.opens)
      (files : ∀ k, (st'.openState k).file = (st.openState k).file)
      (closed : st'.closed = f.toList ++ st.closed) : InstallStep f st st' none
  | fresh (k : ℕ) (new : st.nextOther < k) (opens : st'.opens = k :: st.opens)
      (file : (st'.openState k).file = f)
      (files : ∀ j, j ≠ k → (st'.openState j).file = (st.openState j).file)
      (closed : st'.closed = st.closed) : InstallStep f st st' none
  | replace (k : ℕ) (g : OpenFile) (brought : f = some g) (live : k ∈ st.opens)
      (opens : st'.opens = st.opens) (file : (st'.openState k).file = some g)
      (files : ∀ j, j ≠ k → (st'.openState j).file = (st.openState j).file)
      (closed : st'.closed = (st.openState k).file.toList ++ st.closed) :
      InstallStep f st st' (some k)

def replaced (s : Server) : NfsInterleaving.Event → Option ℕ
  | .openInstall slot _ _ =>
    match s.pending slot with
    | some (.opened plan (some _)) =>
      if openRefused s.store plan then none
      else s.store.toTables.findOpen plan.target plan.owner
    | _ => none
  | .downgradeInstall slot _ =>
    match s.pending slot with
    | some (.downOpened _ a (some _)) =>
      if a.other.count ∉ s.store.opens ∨ (s.store.openState a.other.count).seq ≠ a.stateSeq ∨
          s.store.toTables.locksBlockDowngrade a.other.count a.access then none
      else some a.other.count
    | _ => none
  | _ => none

theorem openGrant_closed (st : Store) (now : ℕ) (plan : OpenPlan) (k : ℕ) :
    (openGrant st now plan k).2.closed = st.closed := by
  simp only [openGrant]
  split
  · unfold Store.grantDelegation
    split <;> rfl
  · rfl

theorem InstallStep.of_update {st st' k v} (live : k ∈ st.opens) (opens : st'.opens = st.opens)
    (states : st'.openState = update st.openState k v)
    (file : v.file = if f.isSome then f else (st.openState k).file)
    (closed : st'.closed = (if f.isSome then (st.openState k).file else none).toList ++ st.closed) :
    InstallStep f st st' (if f.isSome then some k else none) := by
  have hself : (st'.openState k).file = v.file := by rw [states, update_self]
  have hother : ∀ j, j ≠ k → (st'.openState j).file = (st.openState j).file := by
    intro j hj
    rw [states, update_of_ne hj]
  cases f with
  | none =>
    refine .refuse opens (fun j => ?_) closed
    by_cases hj : j = k
    · rw [hj, hself]
      exact file
    · exact hother j hj
  | some g => exact .replace k g rfl live opens (hself.trans file) hother closed

theorem openInstall_step {slot plan handle owners} (env : OpenEnv) (hi : Indexed s.store.toTables)
    (hslot : s.pending slot = some (.opened plan handle)) (hst : s'.store =
      { (openInstall s.store now plan (OpenPlan.openFile plan handle)).2 with owner := owners }) :
    s.store.nextOther ≤ s'.store.nextOther ∧
      InstallStep (OpenPlan.openFile plan handle) s.store s'.store
        (replaced s (.openInstall slot now env)) := by
  have hrep : replaced s (.openInstall slot now env) =
      if (OpenPlan.openFile plan handle).isSome then
        if openRefused s.store plan then none
        else s.store.toTables.findOpen plan.target plan.owner
      else none := by
    cases handle <;> simp [replaced, hslot, OpenPlan.openFile]
  rw [hrep, hst]
  generalize OpenPlan.openFile plan handle = f
  rcases openInstall_cases s.store plan now f with
    ⟨hr, he⟩ | ⟨hr, hnone, he⟩ | ⟨hr, k, hk, he⟩
  · rw [he, hr, if_pos rfl, ite_self]
    exact ⟨le_refl _, .refuse rfl (fun _ => rfl) rfl⟩
  · obtain ⟨n, hn, ht⟩ := openGrant_tables (openNew s.store plan f) now plan (s.store.nextOther + 1)
    have hc := openGrant_closed (openNew s.store plan f) now plan (s.store.nextOther + 1)
    rw [he, hr, hnone, if_neg Bool.false_ne_true, ite_self]
    generalize (openGrant (openNew s.store plan f) now plan (s.store.nextOther + 1)).2 = st' at ht hc
    refine ⟨?_, .fresh (s.store.nextOther + 1) (Nat.lt_succ_self _) ?_ ?_ (fun j hj => ?_) hc⟩
    · change _ ≤ st'.nextOther
      rw [ht]
      exact le_trans (Nat.le_succ _) hn
    · change st'.opens = _
      rw [ht]
      rfl
    · change (st'.openState _).file = _
      rw [ht]
      simp [openNew, Store.setClient, Store.setTables, Tables.installOpen]
    · change (st'.openState _).file = _
      rw [ht]
      exact congrArg OpenState.file (update_of_ne hj _ _)
  obtain ⟨n, hn, ht⟩ := openGrant_tables (openUpgrade s.store plan f k) now plan k
  have hc := openGrant_closed (openUpgrade s.store plan f k) now plan k
  rw [he, hr, hk, if_neg Bool.false_ne_true]
  generalize (openGrant (openUpgrade s.store plan f k) now plan k).2 = st' at ht hc
  have hstates : st'.openState =
      update s.store.openState k ((openUpgrade s.store plan f k).openState k) := by
    rw [ht]
    simp [openUpgrade, Store.closeFile, Store.setTables, Tables.setOpen]
  refine ⟨?_, .of_update (hi.findOpen_some hk).1 ?_ hstates ?_ hc⟩
  · change _ ≤ st'.nextOther
    rw [ht]
    exact hn
  · change st'.opens = _
    rw [ht]
    rfl
  · simp [openUpgrade, Store.closeFile, Store.setTables, Tables.setOpen]

theorem downgradeInstall_step {slot o a handle owners}
    (hslot : s.pending slot = some (.downOpened o a handle)) (hst : s'.store =
      { (downgradeInstall s.store now a (handle.map fun h => ⟨h, a.flag⟩)).2 with
        owner := owners }) :
    s.store.nextOther ≤ s'.store.nextOther ∧
      InstallStep (handle.map fun h => ⟨h, a.flag⟩) s.store s'.store
        (replaced s (.downgradeInstall slot now)) := by
  have hrep : replaced s (.downgradeInstall slot now) =
      if (handle.map fun h => (⟨h, a.flag⟩ : OpenFile)).isSome then
        if a.other.count ∉ s.store.opens ∨ (s.store.openState a.other.count).seq ≠ a.stateSeq ∨
            s.store.toTables.locksBlockDowngrade a.other.count a.access then none
        else some a.other.count
      else none := by
    cases handle <;> simp [replaced, hslot]
  rw [hrep, hst]
  generalize (handle.map fun h => (⟨h, a.flag⟩ : OpenFile)) = f
  simp only [downgradeInstall]
  split
  · rename_i hgone
    rw [if_pos (or_assoc.1 (.inl hgone)), ite_self]
    exact ⟨le_refl _, .refuse rfl (fun _ => rfl) rfl⟩
  rename_i hlive
  split
  · rename_i hblock
    rw [if_pos (Or.inr (.inr hblock)), ite_self]
    exact ⟨le_refl _, .refuse rfl (fun _ => rfl) rfl⟩
  rename_i hfree
  rw [if_neg fun hc => (or_assoc.2 hc).elim hlive hfree]
  rw [not_or, not_not] at hlive
  exact ⟨le_refl _, .of_update hlive.1 rfl rfl rfl rfl⟩

/-- An installation moves the file of its request and the file it replaces. -/
def moved (slot : ℕ) (r : Option ℕ) (dest : Place) : Place → Place
  | .slot i => if i = slot then dest else .slot i
  | .live j => if some j = r then .closed else .live j
  | .closed => .closed

theorem InstallStep.placed {slot n r p} (h : InstallStep f s.store s'.store r)
    (hi : Indexed s.store.toTables) (hslot : s.pending slot = some p)
    (hf : f.map OpenFile.handle = handleOf p) (hp : s'.pending = update s.pending slot none)
    (hs : Placed (Holds s) n) : Placed (Holds s') (n + 1) := by
  have hslots : ∀ i k, Holds s' (.slot i) k → i ≠ slot ∧ Holds s (.slot i) k := by
    intro i k hh
    have hold := (holds_update hp hh).resolve_right nofun
    refine ⟨?_, hold⟩
    rintro rfl
    obtain ⟨q, hq, -⟩ := hh
    rw [hp, update_self] at hq
    cases hq
  have hhere : ∀ g, f = some g → Holds s (.slot slot) g.handle := by
    intro g hg
    refine ⟨p, hslot, ?_⟩
    rw [← hf, hg]
    rfl
  cases h with
  | refuse opens files closed =>
    refine hs.move .closed (moved slot none .closed) fun q k hh => .inr ?_
    cases q with
    | live j =>
      obtain ⟨hj, g, hg, hk⟩ := hh
      rw [opens] at hj
      rw [files] at hg
      exact ⟨.live j, ⟨hj, g, hg, hk⟩, by simp [moved]⟩
    | slot i =>
      obtain ⟨hne, hold⟩ := hslots i k hh
      exact ⟨.slot i, hold, (if_neg hne).symm⟩
    | closed =>
      obtain ⟨g, hg, hk⟩ := hh
      rw [closed] at hg
      rcases List.mem_append.1 hg with hg | hg
      · refine ⟨.slot slot, ?_, (if_pos rfl).symm⟩
        rw [← hk]
        exact hhere g (Option.mem_toList.1 hg)
      · exact ⟨.closed, ⟨g, hg, hk⟩, rfl⟩
  | fresh k new opens file files closed =>
    have hnew : k ∉ s.store.opens := fun hk => absurd (hi.bound k hk) (by omega)
    refine hs.move .closed (moved slot none (.live k)) fun q m hh => .inr ?_
    cases q with
    | live j =>
      obtain ⟨hj, g, hg, hm⟩ := hh
      rw [opens] at hj
      by_cases hjk : j = k
      · subst hjk
        rw [file] at hg
        refine ⟨.slot slot, ?_, (if_pos rfl).symm⟩
        rw [← hm]
        exact hhere g hg
      · rw [files j hjk] at hg
        exact ⟨.live j, ⟨(List.mem_cons.1 hj).resolve_left hjk, g, hg, hm⟩, by simp [moved]⟩
    | slot i =>
      obtain ⟨hne, hold⟩ := hslots i m hh
      exact ⟨.slot i, hold, (if_neg hne).symm⟩
    | closed =>
      obtain ⟨g, hg, hm⟩ := hh
      rw [closed] at hg
      exact ⟨.closed, ⟨g, hg, hm⟩, rfl⟩
  | replace k g brought live opens file files closed =>
    refine hs.move .closed (moved slot (some k) (.live k)) fun q m hh => .inr ?_
    cases q with
    | live j =>
      obtain ⟨hj, g', hg', hm⟩ := hh
      rw [opens] at hj
      by_cases hjk : j = k
      · subst hjk
        rw [file] at hg'
        refine ⟨.slot slot, ?_, (if_pos rfl).symm⟩
        rw [← hm]
        exact hhere g' (brought.trans hg')
      · rw [files j hjk] at hg'
        exact ⟨.live j, ⟨hj, g', hg', hm⟩, (if_neg (by simpa using hjk)).symm⟩
    | slot i =>
      obtain ⟨hne, hold⟩ := hslots i m hh
      exact ⟨.slot i, hold, (if_neg hne).symm⟩
    | closed =>
      obtain ⟨g', hg', hm⟩ := hh
      rw [closed] at hg'
      rcases List.mem_append.1 hg' with hg' | hg'
      · exact ⟨.live k, ⟨live, g', Option.mem_toList.1 hg', hm⟩, (if_pos rfl).symm⟩
      · exact ⟨.closed, ⟨g', hg', hm⟩, rfl⟩

end Installations

section Steps

/-- What a step means for the I/O requests under way: states keep their files, except the one
whose file is replaced and closed. -/
structure Follows (r : Option ℕ) (st st' : Store) : Prop where
  next : st.nextOther ≤ st'.nextOther
  live : ∀ k ∈ st'.opens, k ≤ st.nextOther → k ∈ st.opens
  files : ∀ k ∈ st'.opens, k ≤ st.nextOther → r ≠ some k →
    (st'.openState k).file = (st.openState k).file
  closed : ∀ f ∈ st.closed, f ∈ st'.closed
  replaced : ∀ k, r = some k → k ∈ st'.opens ∧
    ∀ f, (st.openState k).file = some f → f ∈ st'.closed

theorem Retires.follows {st st'} (h : Retires st st')
    (hn : st.nextOther ≤ st'.nextOther) : Follows none st st' := by
  obtain ⟨l, hl, -⟩ := h.closed
  refine ⟨hn, fun k hk _ => (h.opens k hk).1, fun k hk _ _ => (h.opens k hk).2, fun f hf => ?_,
    nofun⟩
  rw [hl]
  exact List.mem_append_right l hf

theorem FileStep.follows {n s s'} (h : FileStep n s s')
    (hn : s.store.nextOther ≤ s'.store.nextOther) : Follows none s.store s'.store := by
  cases h with
  | quiet slot store slots => exact store.follows hn
  | discard st f store fresh tables closed slots =>
    rw [tables] at hn
    have hst := store.follows hn
    refine ⟨?_, ?_, ?_, fun g hg => ?_, nofun⟩
    · rw [tables]
      exact hst.next
    · rw [tables]
      exact hst.live
    · rw [tables]
      exact hst.files
    · rw [closed]
      exact List.mem_cons_of_mem f (hst.closed g hg)

theorem InstallStep.follows {st st' r}
    (h : InstallStep f st st' r) (hn : st.nextOther ≤ st'.nextOther) : Follows r st st' := by
  cases h with
  | refuse opens files closed =>
    refine ⟨hn, fun k hk _ => opens ▸ hk, fun k _ _ _ => files k, fun g hg => ?_, nofun⟩
    rw [closed]
    exact List.mem_append_right _ hg
  | fresh k new opens file files closed =>
    have hne : ∀ j ≤ st.nextOther, j ≠ k := fun j hj e => absurd new (by omega)
    refine ⟨hn, fun j hj hle => ?_, fun j _ hle _ => files j (hne j hle), fun g hg => ?_, nofun⟩
    · rw [opens] at hj
      exact (List.mem_cons.1 hj).resolve_left (hne j hle)
    · rw [closed]
      exact hg
  | replace k g brought live opens file files closed =>
    refine ⟨hn, fun j hj _ => opens ▸ hj, fun j _ _ hr => files j ?_, fun g' hg' => ?_, ?_⟩
    · rintro rfl
      exact hr rfl
    · rw [closed]
      exact List.mem_append_right _ hg'
    · rintro j hj
      cases hj
      refine ⟨opens ▸ live, fun g' hg' => ?_⟩
      rw [closed, hg']
      exact List.mem_cons_self

/-- The server's tables are indexed, files are in one place each, and I/O requests can account
for theirs. -/
structure Accounted (s : System) : Prop where
  indexed : Indexed s.server.store.toTables
  placed : Placed (Holds s.server) s.files
  tracked : Tracked s

theorem critical_follows {s s' n e} (hi : Indexed s.store.toTables) (hp : Placed (Holds s) n)
    (hn : newFile n e = true) (h : NfsInterleaving.next s e = some s') :
    Placed (Holds s') (n + 1) ∧ Follows (replaced s e) s.store s'.store := by
  rcases next_cases h with ⟨he, ht⟩ | hins
  · have hf := Turn.files hn ht
    have hle := (NfsOpenBacking.Changes.openState ht.changes).1
    have hrep : replaced s e = none := by
      cases e with
      | openInstall => cases he
      | downgradeInstall => cases he
      | _ => rfl
    rw [hrep]
    exact ⟨hf.placed hp, hf.follows hle⟩
  cases hins with
  | opened slot now env plan handle f hslot hst hpend =>
    obtain ⟨hle, hstep⟩ := openInstall_step env hi hslot hst
    refine ⟨hstep.placed hi hslot ?_ hpend hp, hstep.follows hle⟩
    cases handle <;> rfl
  | downgraded slot now o a handle f hslot hst hpend =>
    obtain ⟨hle, hstep⟩ := downgradeInstall_step hslot hst
    refine ⟨hstep.placed hi hslot ?_ hpend hp, hstep.follows hle⟩
    cases handle <;> rfl

/-- No I/O request is under way on the state whose file is replaced. -/
def NotInUse (s : System) : Event → Prop
  | .critical e => ∀ i k f, s.io i = some (k, f) → replaced s.server e ≠ some k
  | _ => True

variable {s s' : System}

theorem Tracked.follows (h : Tracked s) {r}
    (hf : Follows r s.server.store s'.server.store) (hio : s'.io = s.io) : Tracked s' := by
  intro i k f hi
  rw [hio] at hi
  obtain ⟨hle, hfile⟩ := h i k f hi
  refine ⟨le_trans hle hf.next, fun hk => ?_⟩
  rcases hfile (hf.live k hk hle) with hcur | hclosed
  · by_cases hr : r = some k
    · exact .inr ((hf.replaced k hr).2 f hcur)
    · rw [hf.files k hk hle hr]
      exact .inl hcur
  · exact .inr (hf.closed f hclosed)

theorem resolve_tracked {st fh lookup seq other write k f}
    (h : flight st other (ioResolve st now fh lookup seq other write).1 = some (k, f)) :
    k ∈ st.opens ∧ (st.openState k).file = some f := by
  cases hr : (ioResolve st now fh lookup seq other write).1 with
  | error e =>
    rw [hr] at h
    cases h
  | ok x =>
    cases x with
    | none =>
      rw [hr] at h
      cases h
    | some g =>
      obtain ⟨-, j, hj, hfile, -⟩ := ioResolve_file hr
      rw [hr] at h
      simp only [flight, hj, Option.bind_some] at h
      split at h
      · rename_i hlive
        cases h
        exact ⟨hlive, hfile⟩
      · cases h

theorem Accounted.turn {e} (h : Accounted s) (hg : NotInUse s e)
    (ht : s'.server.store.toTables = s.server.store.toTables)
    (hc : s'.server.store.closed = s.server.store.closed)
    (hp : s'.server.pending = s.server.pending) (hn : s'.files = s.files) {slot x} (hio : s'.io = update s.io slot x)
    (hx : ∀ k f, x = some (k, f) →
      k ∈ s.server.store.opens ∧ (s.server.store.openState k).file = some f) :
    Accounted s' ∧ (Current s → (Current s' ↔ NotInUse s e)) := by
  have hholds : Holds s'.server = Holds s.server := by
    funext p k
    cases p with
    | live j => simp only [Holds, ht]
    | slot i => simp only [Holds, hp]
    | closed => simp only [Holds, hc]
  have hcases : ∀ i k f, s'.io i = some (k, f) → s.io i = some (k, f) ∨
      (k ∈ s.server.store.opens ∧ (s.server.store.openState k).file = some f) := by
    intro i k f hi
    rw [hio] at hi
    by_cases his : i = slot
    · subst his
      rw [update_self] at hi
      exact .inr (hx k f hi)
    · rw [update_of_ne his] at hi
      exact .inl hi
  refine ⟨⟨?_, ?_, fun i k f hi => ?_⟩, fun hcur => ⟨fun _ => hg, fun _ i k f hi hk => ?_⟩⟩
  · rw [ht]
    exact h.indexed
  · rw [hholds, hn]
    exact h.placed
  · rw [ht, hc]
    rcases hcases i k f hi with hold | ⟨hlive, hfile⟩
    · exact h.tracked i k f hold
    · exact ⟨h.indexed.bound k hlive, fun _ => .inl hfile⟩
  · rw [ht] at hk ⊢
    rcases hcases i k f hi with hold | ⟨-, hfile⟩
    · exact hcur i k f hold hk
    · exact hfile

theorem next_accounted {e} (h : Accounted s) (hn : next s e = some s') :
    Accounted s' ∧ (Current s → (Current s' ↔ NotInUse s e)) := by
  cases e with
  | critical e =>
    simp only [next] at hn
    split at hn
    · rename_i hnew
      obtain ⟨t, ht, rfl⟩ := Option.map_eq_some_iff.1 hn
      obtain ⟨hp, hf⟩ := critical_follows h.indexed h.placed hnew ht
      have htr : Tracked { s with server := t, files := s.files + 1 } :=
        h.tracked.follows hf rfl
      refine ⟨⟨next_indexed h.indexed ht, hp, htr⟩, fun hcur => ?_⟩
      constructor
      · intro hcur' i k f hi hr
        obtain ⟨hlive, hclosed⟩ := hf.replaced k hr
        have hfile := hcur i k f hi (hf.live k hlive (h.tracked i k f hi).1)
        exact (filesOpen_iff hp htr).2 hcur' i k f hi hlive (hclosed f hfile)
      · intro hg i k f hi hk
        have hle := (h.tracked i k f hi).1
        have hfile := hcur i k f hi (hf.live k hk hle)
        exact (hf.files k hk hle (hg i k f hi)).trans hfile
    · cases hn
  | resolve slot now fh lookup seq other write =>
    simp only [next] at hn
    split at hn
    · cases hn
    cases hn
    have hr := ioResolve_renews s.server.store now fh lookup seq other write
    refine h.turn trivial ?_ ?_ rfl rfl rfl fun k f => resolve_tracked
    · rcases hr with hr | ⟨c, hr⟩
      · simp only [hr]
      · simp only [hr, Store.renewClient_tables]
    · rcases hr with hr | ⟨c, hr⟩
      · simp only [hr]
      · simp only [hr]
        rfl
  | perform slot =>
    simp only [next] at hn
    split at hn
    · cases hn
      exact h.turn trivial rfl rfl rfl rfl rfl nofun
    · cases hn

theorem start_accounted (cfg : Config) : Accounted (start cfg) where
  indexed := start_indexed cfg
  placed := by
    have hempty : ∀ p k, ¬ Holds (start cfg).server p k := by
      intro p k h
      cases p <;> simp [Holds, start, NfsInterleaving.start, newStateStore] at h
    exact ⟨fun p k h => absurd h (hempty p k), fun p q k h _ => absurd h (hempty p k)⟩
  tracked := nofun

/-- READ and WRITE use open files in the runs that never replace the file of a state on which one
of them is under way, and any such replacement leaves one with a closed file at once. -/
theorem io_file_open_iff (cfg : Config) : (∀ es s, Meets next NotInUse (start cfg) es →
      run next (start cfg) es = some s → FilesOpen s) ∧
    ∀ es s e s', run next (start cfg) es = some s → FilesOpen s →
      next s e = some s' → (FilesOpen s' ↔ NotInUse s e) := by
  refine kept_iff next (I := Accounted) (fun s e t hs hn => ?_) (start_accounted cfg) nofun
  obtain ⟨ht, hiff⟩ := next_accounted hs hn
  rw [filesOpen_iff hs.placed hs.tracked, filesOpen_iff ht.placed ht.tracked]
  exact ⟨ht, hiff⟩

/-- One OPEN of `f` by the same owner, from its lookup to its installation. -/
def openRun (seqid access : UInt32) (handle : ℕ) : List Event :=
  [.openLookup 0 0 (some []) (openArgs seqid access), .openCheck 0 (openEnv handle),
    .openFiles 0 0 (openEnv handle), .openInstall 0 0 (openEnv handle)].map .critical

/-- The owner opens the file for writing too while its READ is between the two steps. -/
def upgradedBeforeRead : List Event :=
  registerClient.map .critical ++ openRun 1 1 4 ++
    [.critical (.request (.openConfirm 0 (some ["f"]) 1 ⟨5, 1⟩ 2)),
      .resolve 0 0 (some ["f"]) (.ok .regular) 1 ⟨5, 1⟩ false] ++
    openRun 3 2 9

theorem read_uses_closed_file :
    ∃ s, run next (start ⟨90, 90, 5, false⟩) upgradedBeforeRead = some s ∧
      ¬ FilesOpen s ∧ (next s (.perform 0)).isSome = true := by
  refine exists_run (P := fun s => s.io 0 = some (1, ⟨4, .rdonly⟩) ∧ 1 ∈ s.server.store.opens ∧
    ⟨4, .rdonly⟩ ∈ s.server.store.closed) (by decide +kernel) ?_
  rintro s - ⟨hio, hopen, hclosed⟩
  exact ⟨fun h => h 0 1 ⟨4, .rdonly⟩ hio hopen hclosed, by simp [next, hio]⟩

end Steps

end NfsFileUse
