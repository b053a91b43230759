import FacetFS.SmbTables
import FacetFS.SmbHandlers

/-! # Share modes and byte locks of the SMB server

The sections of the state lock interleave in any order on any sessions and handles: a reservation
may be committed, aborted or swept, and a session may leave the map while handles of it are still
listed. The opens of a path stay exactly the registered handles with that path, they do not
conflict, and byte locks of different handles that meet are shared. -/
namespace SmbExclusion

open SmbState SmbTables GroupIndex EventSystem EffectTriple SmbHandlers LittleEndian
open SmbServer (World decodeElements locked)
open SmbWire (allOnes)

/-- Locks of different handles in one list that meet are shared. -/
def Compatible (locks : List ByteLock) : Prop :=
  ∀ l ∈ locks, ∀ m ∈ locks, l.handle ≠ m.handle → l.start < m.stop → m.start < l.stop →
    l.write = false ∧ m.write = false

def LocksApart (st : State) : Prop := ∀ p, Compatible (members st.locks p)

structure Tables (st : State) : Prop where
  indexed : Indexed st
  numbered : Numbered st
  apart : Apart st
  locksApart : LocksApart st

theorem tables_new : Tables newServerState where
  indexed := indexed_new
  numbered := numbered_new
  apart := by
    intro p h k hh
    simp [newServerState] at hh
  locksApart := by
    intro p l hl
    simp [newServerState] at hl

variable {st : State}

theorem Tables.of_same {st'} (ht : Tables st) (h : SameRegistry st st')
    (hl : ∀ p, Compatible (members st'.locks p)) : Tables st' :=
  ⟨ht.indexed.of_same h, ht.numbered.of_same h, ht.apart.of_same h, hl⟩

section Locks

variable {locks locks' : List ByteLock}

theorem Compatible.subset (h : Compatible locks)
    (hsub : ∀ l ∈ locks', l ∈ locks) : Compatible locks' := by
  intro l hl m hm
  exact h l (hsub l hl) m (hsub m hm)

theorem Compatible.append (h : Compatible locks) {n}
    (hn : locks.any (conflicts n.handle n.start n.stop n.write) = false) :
    Compatible (locks ++ [n]) := by
  have clear : ∀ l ∈ locks, l.handle ≠ n.handle → n.start < l.stop → l.start < n.stop →
      n.write = false ∧ l.write = false := by
    intro l hl hne h1 h2
    have hc := List.any_eq_false.1 hn l hl
    simpa [conflicts, hne, h1, h2] using hc
  intro l hl m hm hne h1 h2
  rcases List.mem_append.1 hl with hl' | hl' <;> rcases List.mem_append.1 hm with hm' | hm'
  · exact h l hl' m hm' hne h1 h2
  · obtain rfl := List.mem_singleton.1 hm'
    exact (clear l hl' hne h2 h1).symm
  · obtain rfl := List.mem_singleton.1 hl'
    exact clear m hm' (Ne.symm hne) h1 h2
  · obtain rfl := List.mem_singleton.1 hl'
    obtain rfl := List.mem_singleton.1 hm'
    exact absurd rfl hne

theorem lockElement_compatible {h e held held'} (hc : Compatible locks)
    (hl : lockElement h e locks held = .ok (locks', held')) : Compatible locks' := by
  rcases lockElement_cases hl with ⟨-, -, rfl⟩ | ⟨write, -, -, rfl, hany⟩
  · apply hc.subset
    intro l
    exact List.mem_of_mem_eraseP
  · apply hc.append
    exact hany

theorem lockElements_compatible {h es held} (hc : Compatible locks)
    (hl : lockElements h es locks held = .ok locks') : Compatible locks' := by
  induction es generalizing locks held with
  | nil =>
    cases hl
    exact hc
  | cons e es ih =>
    rw [lockElements] at hl
    split at hl
    · cases hl
    · rename_i he
      exact ih (lockElement_compatible hc he) hl

/-- The locks of a path after the elements of a request one after another: each puts a lock of the
handle in, or takes the first one out that has its range. -/
def Applied (h : HandleRef) : List LockElement → List ByteLock → List ByteLock → Prop
  | [], before, after => after = before
  | e :: es, before, after =>
    if e.flags &&& flagUnlock = 0 then
      Applied h es (before ++ [⟨h, e.start, e.start + e.length, e.flags &&& flagExclusive != 0⟩])
        after
    else ∃ front l back, before = front ++ l :: back ∧ Releases h e l ∧
      (∀ k ∈ front, ¬ Releases h e k) ∧ Applied h es (front ++ back) after

theorem lockElements_applied {h es held} (hl : lockElements h es locks held = .ok locks') :
    Applied h es locks locks' := by
  induction es generalizing locks held with
  | nil =>
    cases hl
    rfl
  | cons e es ih =>
    rw [lockElements] at hl
    split at hl
    · cases hl
    rename_i he
    rcases lockElement_cases he with ⟨hflag, hany, rfl⟩ | ⟨write, hflag, rfl, rfl, -⟩
    · obtain ⟨k, hk, hr⟩ := List.any_eq_true.1 hany
      obtain ⟨l, front, back, hfront, hr, rfl, he⟩ := List.exists_of_eraseP hk hr
      rw [Applied, if_neg hflag]
      exact ⟨front, l, back, rfl, hr, hfront, he ▸ ih hl⟩
    · rw [Applied, if_pos hflag]
      exact ih hl

theorem lock_locksApart (hl : LocksApart st) (h : HandleRef)
    (es : List LockElement) : LocksApart (lock st h es).2 := by
  intro p
  rcases lock_cases st h es with ⟨-, -, hsame⟩ | ⟨after, held, -, he, hlocks⟩
  · rw [hsame]
    exact hl p
  rw [hlocks]
  split
  · exact lockElements_compatible (hl _) he
  · exact hl p

/-- A LOCK request that is refused leaves the locks of every path as they were, and one that
succeeds applies its elements in order to the locks of its path. The list in the table is
overwritten in both cases, so what the elements did to it in place is not seen. -/
theorem lock_atomic {φ : Type} (c : ConnRef) (m : SmbWire.Message) (w : World φ) :
    Triple (· = w) (SmbServer.lock c m)
      (fun _ w' => ∃ h after, Addresses w c m 8 h ∧
        Applied h (decodeElements m.body (uint16 m.body 2).toNat)
          (members w.tables.locks (w.tables.handle h).path) after ∧
        ∀ p, members w'.tables.locks p =
          if p = (w.tables.handle h).path then after else members w.tables.locks p)
      fun w' => ∀ p, members w'.tables.locks p = members w.tables.locks p := by
  have hsame : ∀ u, u = w → ∀ p, members u.tables.locks p = members w.tables.locks p := by
    rintro _ rfl p
    rfl
  refine (Triple.refuse _ _ hsame).bind fun _ => ?_
  refine (Triple.refuse _ _ fun u hu => hsame u hu.1).bind fun _ => ?_
  refine Triple.bind ((reads_openFor c m 8).triple.imp (fun _ hu => hu)
    (fun _ _ hu => hu) fun u hu => hsame u hu.1.1) fun h => ?_
  generalize (uint16 m.body 2).toNat = count
  refine Triple.bind (Q := fun r u => Addresses w c m 8 h ∧
    lock w.tables h (decodeElements m.body count) = (r, u.tables)) ?_ fun r => ?_
  · rintro _ ⟨⟨⟨rfl, -⟩, -⟩, hh⟩
    exact ⟨(openFor_eq_ok.1 hh).2, rfl⟩
  rintro u ⟨hh, hl⟩
  have hcases := lock_cases w.tables h (decodeElements m.body count)
  rw [hl] at hcases
  obtain ⟨e, rfl, hsame⟩ | ⟨after, held, rfl, he, hlocks⟩ := hcases
  · exact hsame
  · exact ⟨h, after, hh, lockElements_applied he, hlocks⟩

theorem closeHandle_locks (hl : LocksApart st) (h : HandleRef) : LocksApart (closeHandle st h) := by
  intro p
  apply (hl p).subset
  intro l
  exact closeHandle_mem_locks

end Locks

section Sections

/-- The sections that touch the three tables. LOCK resolves its handle and updates the lock table
in one step; a section may run on any session or handle that exists, also after the session has
left the map or the handle has been swept. -/
inductive Section where
  | newSession (conn : ConnRef) (draws : List UInt64)
  | addHandle (s : SessionRef) (h : OpenHandle)
  | commitHandle (h : HandleRef) (f : FileRef) (info : FileInfo)
  | abortHandle (h : HandleRef)
  | closeHandle (h : HandleRef)
  | closeSession (s : SessionRef)
  | lock (s : SessionRef) (treeID : UInt32) (id : FileID) (es : List LockElement)

def enter (st : State) : Section → Option State
  | .newSession conn draws => some (newSession st conn draws).2
  | .addHandle s h => if s < st.nextSession then some (addHandle st s h).2 else none
  | .commitHandle h f info => if h < st.nextOpen then some (commitHandle st h f info).2 else none
  | .abortHandle h => if h < st.nextOpen then some (abortHandle st h) else none
  | .closeHandle h => if h < st.nextOpen then some (closeHandle st h) else none
  | .closeSession s => if s < st.nextSession then some (closeSession st s).2 else none
  | .lock s treeID id es =>
    match handle st s treeID id with
    | none => some st
    | some h => some (lock st h es).2

theorem Tables.newSession (ht : Tables st) (conn : ConnRef) (draws : List UInt64) :
    Tables (newSession st conn draws).2 := by
  rcases newSession_cases st conn draws with h | ⟨id, -, -, h⟩
  · rw [h]
    exact ht
  rw [h]
  exact ⟨ht.indexed.openSession id conn, ht.numbered.openSession ht.indexed id conn, ht.apart,
    ht.locksApart⟩

theorem Tables.addHandle {s} (ht : Tables st) (hs : s < st.nextSession)
    (h64 : (st.session s).nextHandle.toNat + 1 < 2 ^ 64) (h : OpenHandle) :
    Tables (addHandle st s h).2 := by
  rcases addHandle_cases st s h with ⟨_, h'⟩ | ⟨h', -, hr⟩
  · rw [h']
    exact ht
  rw [h']
  exact ⟨ht.indexed.register hs fun k hk => ht.numbered.fresh h64 hk, ht.numbered.register h64,
    ht.apart.register ht.indexed hr, ht.locksApart⟩

theorem Tables.unregister {st' h} (ht : Tables st)
    (hu : Unregisters st st' h) (hh : h < st.nextOpen) (hl : LocksApart st') : Tables st' :=
  ⟨ht.indexed.unregister ht.numbered hu hh, ht.numbered.unregister hu,
    ht.apart.unregister ht.indexed hu, hl⟩

/-- The counter of the session of an `addHandle` can still take a step. -/
def Counting (st : State) : Section → Prop
  | .addHandle s _ => (st.session s).nextHandle.toNat + 1 < 2 ^ 64
  | _ => True

theorem enter_tables (st : State) (e : Section) (st' : State) (ht : Tables st)
    (hc : Counting st e) (h : enter st e = some st') : Tables st' := by
  cases e with
  | newSession conn draws =>
    cases h
    exact ht.newSession conn draws
  | addHandle s k =>
    obtain ⟨hs, rfl⟩ := Option.ite_some_none_eq_some.1 h
    exact ht.addHandle hs hc k
  | commitHandle k f info =>
    obtain ⟨-, rfl⟩ := Option.ite_some_none_eq_some.1 h
    refine ht.of_same (commitHandle_same st k f info) ?_
    rw [commitHandle]
    split <;> exact ht.locksApart
  | abortHandle k =>
    obtain ⟨hk, rfl⟩ := Option.ite_some_none_eq_some.1 h
    exact ht.unregister (abortHandle_unregisters st k) hk ht.locksApart
  | closeHandle k =>
    obtain ⟨hk, rfl⟩ := Option.ite_some_none_eq_some.1 h
    exact ht.unregister (closeHandle_unregisters st k) hk (closeHandle_locks ht.locksApart k)
  | closeSession s =>
    obtain ⟨-, rfl⟩ := Option.ite_some_none_eq_some.1 h
    refine ht.of_same (closeSession_same st s) ?_
    rw [closeSession]
    split <;> exact ht.locksApart
  | lock s treeID id es =>
    simp only [enter] at h
    split at h
    · cases h
      exact ht
    · cases h
      exact ht.of_same (lock_same st _ es) (lock_locksApart ht.locksApart _ es)

def addsTo (s : SessionRef) : Section → Bool
  | .addHandle t _ => t == s
  | _ => false

theorem enter_counter {st' e} (hc : Counting st e) (h : enter st e = some st') (s : SessionRef) :
    (st'.session s).nextHandle.toNat ≤
      (st.session s).nextHandle.toNat + if addsTo s e then 1 else 0 := by
  cases e with
  | newSession conn draws =>
    cases h
    rcases newSession_cases st conn draws with h | ⟨id, -, -, h⟩
    · rw [h]
      exact Nat.le_add_right _ _
    rw [h]
    by_cases hs : s = st.nextSession
    · subst hs
      simp [openSession, newSessionRecord]
    · simp [openSession, Function.update_of_ne hs]
  | addHandle t k =>
    obtain ⟨-, rfl⟩ := Option.ite_some_none_eq_some.1 h
    rcases addHandle_cases st t k with ⟨_, h'⟩ | ⟨h', -, -⟩
    · rw [h']
      exact Nat.le_add_right _ _
    rw [h']
    by_cases hs : s = t
    · subst hs
      simp [register, addsTo, nextHandleNumber_toNat hc]
    · rw [register_session_other hs]
      exact Nat.le_add_right _ _
  | commitHandle k f info =>
    obtain ⟨-, rfl⟩ := Option.ite_some_none_eq_some.1 h
    rw [(commitHandle_same st k f info).counter]
    exact Nat.le_add_right _ _
  | abortHandle k =>
    obtain ⟨-, rfl⟩ := Option.ite_some_none_eq_some.1 h
    rw [(abortHandle_unregisters st k).counter]
    exact Nat.le_add_right _ _
  | closeHandle k =>
    obtain ⟨-, rfl⟩ := Option.ite_some_none_eq_some.1 h
    rw [(closeHandle_unregisters st k).counter]
    exact Nat.le_add_right _ _
  | closeSession t =>
    obtain ⟨-, rfl⟩ := Option.ite_some_none_eq_some.1 h
    rw [(closeSession_same st t).counter]
    exact Nat.le_add_right _ _
  | lock t treeID id es =>
    simp only [enter] at h
    split at h
    · cases h
      exact Nat.le_add_right _ _
    cases h
    rw [(lock_same st _ es).counter]
    exact Nat.le_add_right _ _

/-- A counter that is called fewer than `2 ^ 64` times does not run through. -/
theorem counting_of_count {es}
    (h : ∀ s, (st.session s).nextHandle.toNat + es.countP (addsTo s) < 2 ^ 64) :
    Meets enter Counting st es := by
  induction es generalizing st with
  | nil => trivial
  | cons e es ih =>
    have hc : Counting st e := by
      cases e with
      | addHandle s k =>
        have hs := h s
        rw [List.countP_cons_of_pos (by simp [addsTo])] at hs
        change (st.session s).nextHandle.toNat + 1 < 2 ^ 64
        omega
      | _ => trivial
    refine ⟨hc, ?_⟩
    intro st' he
    apply ih
    intro s
    have hs := h s
    have hle := enter_counter hc he s
    rw [List.countP_cons] at hs
    omega

theorem run_tables {es} (hc : ∀ s, es.countP (addsTo s) < 2 ^ 64)
    (h : run enter newServerState es = some st) : Tables st := by
  apply run_invariant_of_meets enter_tables tables_new _ h
  apply counting_of_count
  intro s
  simpa [newServerState, newSessionRecord] using hc s

end Sections

section Exclusion

/-- In every state that the sections can lead to, with fewer than `2 ^ 64` calls of `addHandle` on
each session. -/
theorem opens_and_locks_exclusive {st : State} {es : List Section}
    (hc : ∀ s, es.countP (addsTo s) < 2 ^ 64) (h : run enter newServerState es = some st) :
    (∀ p h k, h ∈ members st.opens p → k ∈ members st.opens p → h ≠ k →
      shareConflict (st.handle h).access (st.handle h).share
        (st.handle k).access (st.handle k).share = false ∧
      shareConflict (st.handle k).access (st.handle k).share
        (st.handle h).access (st.handle h).share = false) ∧
    (∀ p h, h ∈ members st.opens p ↔ (st.handle h).path = p ∧ st.Registered h) ∧
    (∀ p, ∀ l ∈ members st.locks p, ∀ m ∈ members st.locks p, l.handle ≠ m.handle →
      l.start < m.stop → m.start < l.stop → l.write = false ∧ m.write = false) := by
  have ht := run_tables hc h
  refine ⟨fun p h k hh hk hne => ⟨?_, ?_⟩, ht.indexed.listed, ht.locksApart⟩
  · exact ht.apart p h k hh hk hne
  · exact ht.apart p k h hk hh (Ne.symm hne)

def reader (p : Path) : OpenHandle :=
  ⟨⟨0, 0⟩, 0, 1, p, none, noInfo, accessReadData, shareRead, 0, false⟩

def pathA : Path := [['a']]
def pathB : Path := [['b']]

/-- Two readers of one file with a shared lock each, over the same bytes. -/
def twoReaders : List Section :=
  [.newSession 0 [2], .addHandle 0 (reader pathA), .commitHandle 0 0 noInfo,
    .addHandle 0 (reader pathA), .commitHandle 1 1 noInfo,
    .lock 0 1 ⟨3, 3⟩ [⟨0, 10, flagShared⟩], .lock 0 1 ⟨0, 0⟩ [⟨5, 10, flagShared⟩],
    .lock 0 1 ⟨2, 2⟩ [⟨5, 10, flagShared⟩]]

theorem opens_and_locks_exclusive_twoReaders : ∃ st,
    run enter newServerState twoReaders = some st ∧
    (members st.opens pathA).length = 2 ∧ (members st.locks pathA).length = 2 ∧
    ∀ l ∈ members st.locks pathA, ∀ m ∈ members st.locks pathA, l.handle ≠ m.handle →
      l.start < m.stop → m.start < l.stop → l.write = false ∧ m.write = false := by
  have hc : ∀ s, twoReaders.countP (addsTo s) < 2 ^ 64 := by
    intro s
    exact Nat.lt_of_le_of_lt List.countP_le_length (by decide)
  refine exists_run (P := fun st => (members st.opens pathA).length = 2 ∧
    (members st.locks pathA).length = 2) (by decide +kernel) ?_
  rintro st h ⟨ho, hl⟩
  exact ⟨ho, hl, (opens_and_locks_exclusive hc h).2.2 pathA⟩

end Exclusion

section Wrap

/-- Opens a file and gives the open up again, `n` times. -/
def churn : ℕ → HandleRef → List Section
  | 0, _ => []
  | n + 1, k => .addHandle 0 (reader pathB) :: .abortHandle k :: churn n (k + 1)

theorem countP_churn (n k : ℕ) : (churn n k).countP (addsTo 0) = n := by
  induction n generalizing k with
  | zero => rfl
  | succ n ih => simp [churn, addsTo, ih]

def firstID : FileID := ⟨3, 3⟩

/-- The first session holds one handle, whose number was the first, and has given out `n`
numbers. -/
structure Holding (n : ℕ) (st : State) : Prop where
  session : 0 < st.nextSession
  current : st.Current 0
  counter : (st.session 0).nextHandle.toNat = n
  mask : (st.session 0).handleSeal = 2
  table : (st.session 0).handles = AList.singleton firstID 0
  opened : members st.opens pathA = [0]
  closed : members st.opens pathB = []
  first : (st.handle 0).id = firstID ∧ (st.handle 0).session = 0
  next : st.nextOpen = n

theorem erase_insert_self {s : AList fun _ : FileID => HandleRef} {id : FileID} (h : id ∉ s)
    (k : HandleRef) : (s.insert id k).erase id = s := by
  apply AList.ext
  rw [AList.insert_of_notMem h]
  exact List.kerase_cons_eq rfl

variable {n : ℕ}

theorem Holding.addHandle (hb : Holding n st) :
    addHandle st 0 (reader pathB) = (.ok n, register st 0 (reader pathB)) := by
  have hlen : ¬ (st.session 0).handles.entries.length ≥ maxHandlesPerSession := by
    rw [hb.table]
    decide
  have hp : members st.opens (reader pathB).path = [] := hb.closed
  rw [SmbState.addHandle, if_neg (not_not.2 hb.current), if_neg hlen, hp, ← hb.next]
  rfl

theorem Holding.nextID_ne (hb : Holding n st) (h1 : 1 ≤ n)
    (h64 : n + 1 < 2 ^ 64) : nextID st 0 ≠ firstID := by
  intro he
  have hnum : (nextHandleNumber (st.session 0).nextHandle).toNat = n + 1 := by
    rw [nextHandleNumber_toNat, hb.counter]
    rw [hb.counter]
    exact h64
  have hlow : sealHandle 2 (nextHandleNumber (st.session 0).nextHandle) = sealHandle 2 1 := by
    have hl := congrArg FileID.low he
    simp only [nextID, hb.mask] at hl
    exact hl
  have h1' := sealHandle_inj (nextHandleNumber_ne_zero _) (by decide) hlow
  rw [h1'] at hnum
  have hone : (1 : UInt64).toNat = 1 := rfl
  omega

theorem Holding.register_handle (hb : Holding n st) (h : OpenHandle) :
    (register st 0 h).handle n = { h with id := nextID st 0, session := 0, file := none } := by
  have hn := register_handle_new st 0 h
  rwa [hb.next] at hn

theorem Holding.round (hb : Holding n st) (h1 : 1 ≤ n)
    (h64 : n + 1 < 2 ^ 64) : Holding (n + 1) (abortHandle (register st 0 (reader pathB)) n) := by
  have hnew := hb.register_handle (reader pathB)
  have hold : (register st 0 (reader pathB)).handle 0 = st.handle 0 := by
    apply register_handle_old
    rw [hb.next]
    exact h1
  have hu := abortHandle_unregisters (register st 0 (reader pathB)) n
  have hput : (register st 0 (reader pathB)).opens = put st.opens pathB n := by
    rw [← hb.next]
    rfl
  have hopens : (abortHandle (register st 0 (reader pathB)) n).opens =
      drop (put st.opens pathB n) pathB n := by
    rw [hu.opens, hput, hnew]
    rfl
  have hhandles := hu.handles 0
  rw [hnew] at hhandles
  refine ⟨hb.session, ?_, ?_, ?_, ?_, ?_, ?_, ?_, ?_⟩
  · rw [hu.current, register_current]
    exact hb.current
  · rw [hu.counter]
    have hr : ((register st 0 (reader pathB)).session 0).nextHandle =
        nextHandleNumber (st.session 0).nextHandle := by
      simp [register]
    rw [hr, nextHandleNumber_toNat, hb.counter]
    rw [hb.counter]
    exact h64
  · rw [hu.mask, register_handleSeal]
    exact hb.mask
  · have hnot : nextID st 0 ∉ AList.singleton (β := fun _ : FileID => HandleRef) firstID 0 := by
      rw [AList.mem_keys]
      simpa using hb.nextID_ne h1 h64
    rw [hhandles, if_pos rfl, register_handles_self, hb.table]
    exact erase_insert_self hnot _
  · rw [hopens, members_drop, if_neg (by decide), members_put, if_neg (by decide)]
    exact hb.opened
  · rw [hopens, members_drop, if_pos rfl, members_put, if_pos rfl, hb.closed]
    simp
  · rw [hu.handle, hold]
    exact hb.first
  · rw [hu.nextOpen]
    exact congrArg (· + 1) hb.next

theorem Holding.churn {m} (hb : Holding n st) (h1 : 1 ≤ n) (h64 : n + m < 2 ^ 64) :
    ∃ st', run enter st (churn m n) = some st' ∧ Holding (n + m) st' := by
  induction m generalizing n st with
  | zero => exact ⟨st, rfl, hb⟩
  | succ m ih =>
    obtain ⟨st', hrun, hb'⟩ := ih (hb.round h1 (by omega)) (Nat.le_add_left 1 n) (by omega)
    refine ⟨st', ?_, ?_⟩
    · rw [SmbExclusion.churn, run_cons]
      refine ⟨register st 0 (reader pathB), ?_, ?_⟩
      · simp only [enter, if_pos hb.session, hb.addHandle]
      rw [run_cons]
      refine ⟨abortHandle (register st 0 (reader pathB)) n, ?_, hrun⟩
      have hlt : n < (register st 0 (reader pathB)).nextOpen := by
        rw [← hb.next]
        exact Nat.lt_succ_self _
      simp only [enter, if_pos hlt]
    · have he : n + 1 + m = n + (m + 1) := by omega
      rwa [he] at hb'

/-- After `2 ^ 64 - 1` numbers the counter starts over, and the first handle, still open, is no
longer in the table. -/
theorem Holding.overwritten (hb : Holding (2 ^ 64 - 1) st) :
    0 ∈ members (register st 0 (reader pathB)).opens pathA ∧
      ¬ (register st 0 (reader pathB)).Registered 0 := by
  have hlast : (st.session 0).nextHandle = 0xFFFFFFFFFFFFFFFF := by
    apply UInt64.toNat_inj.1
    rw [hb.counter]
    decide
  have hid : nextID st 0 = firstID := by
    simp only [nextID, hb.mask, hlast]
    decide
  have hold : (register st 0 (reader pathB)).handle 0 = st.handle 0 := by
    apply register_handle_old
    rw [hb.next]
    decide
  constructor
  · rw [register_mem_opens, hb.opened]
    simp
  · rw [State.Registered, hold, hb.first.1, hb.first.2, register_handles_self, hid,
      AList.lookup_insert, hb.next]
    decide

theorem opens_keep_overwritten_handle : ∃ es st, run enter newServerState es = some st ∧
    es.countP (addsTo 0) = 2 ^ 64 ∧ 0 ∈ members st.opens pathA ∧ ¬ st.Registered 0 := by
  have hopen : ∃ st, run enter newServerState [.newSession 0 [2], .addHandle 0 (reader pathA)] =
      some st ∧ Holding 1 st :=
    ⟨_, rfl, by decide, by decide +kernel, by decide +kernel, by decide +kernel, rfl, rfl, rfl,
      ⟨by decide +kernel, rfl⟩, rfl⟩
  obtain ⟨st, hst, hb⟩ := hopen
  obtain ⟨st', hst', hb'⟩ := hb.churn (m := 2 ^ 64 - 2) (by decide) (by decide)
  have hb' : Holding (2 ^ 64 - 1) st' := hb'
  refine ⟨[.newSession 0 [2], .addHandle 0 (reader pathA)] ++ (SmbExclusion.churn (2 ^ 64 - 2) 1 ++
    [.addHandle 0 (reader pathB)]), register st' 0 (reader pathB), ?_, ?_, hb'.overwritten⟩
  · rw [run_append]
    refine ⟨st, hst, run_append.2 ⟨st', hst', ?_⟩⟩
    rw [run_cons]
    refine ⟨_, ?_, rfl⟩
    simp only [enter, if_pos hb'.session, hb'.addHandle]
  · rw [List.countP_append, List.countP_append, countP_churn]
    decide

end Wrap

section Issuing

def fileID (mask n : UInt64) : FileID := ⟨sealHandle mask n, sealHandle mask n⟩

/-- The ids that calls of `addHandle` on a session gave out, newest first, and its counter. Between
two calls the session keeps its counter and its seal. -/
inductive Issues (s : SessionRef) (mask : UInt64) : UInt64 → List FileID → Prop
  | start : Issues s mask 0 []
  | refused {n ids st h status st'} : Issues s mask n ids → (st.session s).nextHandle = n →
      (st.session s).handleSeal = mask → addHandle st s h = (.error status, st') →
      Issues s mask (st'.session s).nextHandle ids
  | added {n ids st h k st'} : Issues s mask n ids → (st.session s).nextHandle = n →
      (st.session s).handleSeal = mask → addHandle st s h = (.ok k, st') →
      Issues s mask (st'.session s).nextHandle ((st'.handle k).id :: ids)

variable {s : SessionRef} {mask n : UInt64} {ids : List FileID}

theorem Issues.spec (h : Issues s mask n ids) (hl : ids.length < 2 ^ 64) :
    n.toNat = ids.length ∧ ids.Nodup ∧
      ∀ id, id ∈ ids ↔ ∃ m, m ≠ 0 ∧ m.toNat ≤ n.toNat ∧ id = fileID mask m := by
  induction h with
  | start =>
    refine ⟨rfl, List.nodup_nil, fun id => ⟨nofun, ?_⟩⟩
    rintro ⟨m, hm, hle, -⟩
    exact absurd (UInt64.toNat_inj.1 (Nat.le_zero.1 hle)) hm
  | @refused n ids st h status st' _ hn _ ha ih =>
    rcases addHandle_cases st s h with ⟨_, he⟩ | ⟨he, -, -⟩
    · rw [he] at ha
      cases ha
      rw [hn]
      exact ih hl
    · rw [he] at ha
      cases ha
  | @added n ids st h k st' _ hn hm ha ih =>
    rcases addHandle_cases st s h with ⟨_, he⟩ | ⟨he, -, -⟩
    · rw [he] at ha
      cases ha
    rw [he] at ha
    cases ha
    rw [List.length_cons] at hl
    obtain ⟨hcount, honce, hids⟩ := ih (by omega)
    have hnext : (nextHandleNumber n).toNat = n.toNat + 1 := nextHandleNumber_toNat (by omega)
    have hcounter : ((register st s h).session s).nextHandle = nextHandleNumber n := by
      simp [register, hn]
    have hid : ((register st s h).handle st.nextOpen).id = fileID mask (nextHandleNumber n) := by
      rw [register_handle_new, nextID, hn, hm]
      rfl
    rw [hcounter, hid, hnext, List.length_cons, hcount]
    refine ⟨rfl, List.nodup_cons.2 ⟨fun hmem => ?_, honce⟩, fun id => ?_⟩
    · obtain ⟨m, hm0, hle, heq⟩ := (hids _).1 hmem
      have hm := sealHandle_inj (nextHandleNumber_ne_zero n) hm0 (congrArg FileID.low heq)
      rw [← hm, hnext] at hle
      omega
    · rw [List.mem_cons, hids]
      constructor
      · rintro (rfl | ⟨m, hm0, hle, rfl⟩)
        · exact ⟨_, nextHandleNumber_ne_zero n, by omega, rfl⟩
        · exact ⟨m, hm0, by omega, rfl⟩
      · rintro ⟨m, hm0, hle, rfl⟩
        by_cases hlast : m.toNat = ids.length + 1
        · rw [UInt64.toNat_inj.1 (hlast.trans (hcount ▸ hnext.symm))]
          exact .inl rfl
        · exact .inr ⟨m, hm0, by omega, rfl⟩

/-- The number whose id has all its bits set. -/
def allOnesAt (mask : UInt64) : UInt64 := if mask = ~~~0 then mask else ~~~mask

theorem ones_ne_zero : ~~~(0 : UInt64) ≠ 0 := by decide

theorem sealHandle_allOnes {m} (hm : m ≠ 0) : sealHandle mask m = ~~~0 ↔ m = allOnesAt mask := by
  have hflip : m ^^^ mask = ~~~0 ↔ m = ~~~mask := by
    rw [← UInt64.xor_left_inj mask, UInt64.xor_assoc]
    simp
  grind [sealHandle, allOnesAt, UInt64.xor_eq_zero_iff, UInt64.not_not, ones_ne_zero]

/-- The ids of a session are distinct and not zero; the id with all bits set is among them as soon
as the number for which the seal gives it is reached. -/
theorem fileIDs_distinct (h : Issues s mask n ids) (hl : ids.length < 2 ^ 64) :
    ids.Nodup ∧ ⟨0, 0⟩ ∉ ids ∧ (allOnes ∉ ids ↔ ids.length < (allOnesAt mask).toNat) := by
  obtain ⟨hcount, honce, hids⟩ := h.spec hl
  refine ⟨honce, fun h0 => ?_, ?_⟩
  · obtain ⟨m, hm, -, heq⟩ := (hids _).1 h0
    have hlow : 0 = sealHandle mask m := congrArg FileID.low heq
    grind [sealHandle]
  · rw [← hcount, hids, ← not_le, not_iff_not]
    constructor
    · rintro ⟨m, hm, hle, heq⟩
      rwa [← (sealHandle_allOnes hm).1 (congrArg FileID.low heq).symm]
    · intro hle
      have h0 : allOnesAt mask ≠ 0 := by grind [allOnesAt, UInt64.not_not, ones_ne_zero]
      have hs := (sealHandle_allOnes h0).2 rfl
      exact ⟨_, h0, hle, by rw [fileID, hs]; rfl⟩

def sealed (mask : UInt64) : State := (newSession newServerState 0 [mask]).2

theorem fileIDs_distinct_first :
    ∃ ids : List FileID, ids.length = 1 ∧ ids.Nodup ∧ allOnes ∉ ids := by
  have ha : addHandle (sealed 2) 0 (reader pathA) = (.ok 0, register (sealed 2) 0 (reader pathA)) :=
    rfl
  have h : Issues 0 2 _ _ := .added .start rfl rfl ha
  obtain ⟨honce, -, hones⟩ := fileIDs_distinct h (by decide)
  exact ⟨_, rfl, honce, hones.2 (by decide)⟩

/-- The first handle of a session gets the id that stands for the handle of the message before. -/
theorem first_id_allOnes :
    ((addHandle (sealed 0xFFFFFFFFFFFFFFFE) 0 (reader pathA)).2.handle 0).id = allOnes := by
  decide +kernel

end Issuing

end SmbExclusion
