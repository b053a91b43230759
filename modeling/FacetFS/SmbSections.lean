import FacetFS.SmbTables

/-! # The sections of the state lock

All sections of the SMB server interleave in any order, LOCK with its handle resolved in an earlier
step. In every state they reach, each open handle is listed under its own path, and the byte locks
it holds are kept there. Ids of handles may repeat; nothing here depends on them. -/
namespace SmbSections

open SmbState SmbTables GroupIndex EventSystem

/-- A handle is open while its session lists it or the opens of a path do. -/
def Open (st : State) (h : HandleRef) : Prop :=
  st.Registered h ∨ ∃ p, h ∈ members st.opens p

structure Placed (st : State) : Prop where
  key : ∀ p h, h ∈ members st.opens p → (st.handle h).path = p
  known : ∀ p h, h ∈ members st.opens p → h < st.nextOpen
  entry : ∀ s id h, (st.session s).handles.lookup id = some h →
    h < st.nextOpen ∧ (st.handle h).session = s ∧ (st.handle h).id = id
  listed : ∀ h, st.Registered h → h ∈ members st.opens (st.handle h).path
  holder : ∀ p l, l ∈ members st.locks p → l.handle < st.nextOpen
  lockKey : ∀ p q l, l ∈ members st.locks p → l.handle ∈ members st.opens q → q = p

theorem placed_new : Placed newServerState where
  key p h hm := by simp [newServerState] at hm
  known p h hm := by simp [newServerState] at hm
  entry s id h hl := by simp [newServerState, newSessionRecord] at hl
  listed h hr := by simp [newServerState, State.Registered, newSessionRecord] at hr
  holder p l hl := by simp [newServerState] at hl
  lockKey p q l hl := by simp [newServerState] at hl

theorem Placed.open_iff {st} (hp : Placed st) (h : HandleRef) :
    Open st h ↔ h ∈ members st.opens (st.handle h).path := by
  constructor
  · rintro (hr | ⟨p, hm⟩)
    · exact hp.listed h hr
    · rw [hp.key p h hm]
      exact hm
  · intro hm
    exact .inr ⟨_, hm⟩

section Sections

variable {st st' : State}

theorem Placed.of_same (hp : Placed st) (h : SameRegistry st st')
    (hl : ∀ p l, l ∈ members st'.locks p → l ∈ members st.locks p ∨
      (l.handle < st.nextOpen ∧ (st.handle l.handle).path = p)) : Placed st' where
  key p k hm := by
    rw [h.opens] at hm
    rw [h.path]
    exact hp.key p k hm
  known p k hm := by
    rw [h.opens] at hm
    rw [h.nextOpen]
    exact hp.known p k hm
  entry s id k hk := by
    rw [h.handles] at hk
    rw [h.nextOpen, h.session, h.id]
    exact hp.entry s id k hk
  listed k hr := by
    rw [h.registered] at hr
    rw [h.opens, h.path]
    exact hp.listed k hr
  holder p l hm := by
    rw [h.nextOpen]
    rcases hl p l hm with hm | ⟨hk, -⟩
    · exact hp.holder p l hm
    · exact hk
  lockKey p q l hm ho := by
    rw [h.opens] at ho
    rcases hl p l hm with hm | ⟨-, hk⟩
    · exact hp.lockKey p q l hm ho
    · rw [← hp.key q _ ho]
      exact hk

theorem Placed.of_same_locks (hp : Placed st) (h : SameRegistry st st')
    (hl : st'.locks = st.locks) : Placed st' := by
  apply hp.of_same h
  intro p l hm
  rw [hl] at hm
  exact .inl hm

theorem Placed.openSession (hp : Placed st) (id : UInt64) (conn : ConnRef) :
    Placed (openSession st id conn) where
  key := hp.key
  known := hp.known
  entry s fid k hk := hp.entry s fid k (openSession_lookup hk)
  listed k hr := hp.listed k (openSession_lookup hr)
  holder := hp.holder
  lockKey := hp.lockKey

theorem Placed.unregister {h} (hp : Placed st) (hu : Unregisters st st' h)
    (hl : ∀ p l, l ∈ members st'.locks p → l ∈ members st.locks p) : Placed st' := by
  have hsub : ∀ p k, k ∈ members st'.opens p → k ∈ members st.opens p := by
    intro p k hm
    rw [hu.opens, members_drop] at hm
    split at hm
    · rename_i hpath
      rw [hpath]
      exact List.mem_of_mem_erase hm
    · exact hm
  have hlookup : ∀ s id k, (st'.session s).handles.lookup id = some k →
      (st.session s).handles.lookup id = some k ∧
        (s = (st.handle h).session → id ≠ (st.handle h).id) := by
    intro s id k hk
    rw [hu.handles] at hk
    by_cases hs : s = (st.handle h).session
    · rw [if_pos hs] at hk
      by_cases hid : id = (st.handle h).id
      · subst hid
        rw [AList.lookup_erase] at hk
        cases hk
      · rw [AList.lookup_erase_ne hid] at hk
        exact ⟨hk, fun _ => hid⟩
    · rw [if_neg hs] at hk
      exact ⟨hk, fun h' => absurd h' hs⟩
  refine ⟨?_, ?_, ?_, ?_, ?_, ?_⟩
  · intro p k hm
    rw [hu.handle]
    exact hp.key p k (hsub p k hm)
  · intro p k hm
    rw [hu.nextOpen]
    exact hp.known p k (hsub p k hm)
  · intro s id k hk
    rw [hu.nextOpen, hu.handle]
    exact hp.entry s id k (hlookup s id k hk).1
  · intro k hr
    rw [State.Registered, hu.handle] at hr
    obtain ⟨hk, hne⟩ := hlookup _ _ _ hr
    have hkh : k ≠ h := by
      rintro rfl
      exact hne rfl rfl
    rw [hu.handle, hu.opens, members_drop]
    split
    · rename_i hpath
      rw [← hpath]
      exact (List.mem_erase_of_ne hkh).2 (hp.listed k hk)
    · exact hp.listed k hk
  · intro p l hm
    rw [hu.nextOpen]
    exact hp.holder p l (hl p l hm)
  · intro p q l hm ho
    exact hp.lockKey p q l (hl p l hm) (hsub q _ ho)

theorem placed_register (hp : Placed st) (s : SessionRef) (r : OpenHandle) :
    Placed (register st s r) where
  key p k hm := by
    rcases (register_mem_opens p k).1 hm with hm | ⟨rfl, rfl⟩
    · rw [register_handle_old (hp.known p k hm)]
      exact hp.key p k hm
    · rw [register_handle_new]
  known p k hm := by
    rcases (register_mem_opens p k).1 hm with hm | ⟨rfl, rfl⟩
    · exact Nat.lt_succ_of_lt (hp.known p k hm)
    · exact Nat.lt_succ_self _
  entry t id k hk := by
    rcases register_lookup hk with ⟨rfl, rfl, rfl⟩ | hk
    · rw [register_handle_new]
      exact ⟨Nat.lt_succ_self _, rfl, rfl⟩
    obtain ⟨hlt, hs, hid⟩ := hp.entry t id k hk
    rw [register_handle_old hlt]
    exact ⟨Nat.lt_succ_of_lt hlt, hs, hid⟩
  listed k hr := by
    rw [register_mem_opens]
    rcases register_lookup hr with ⟨-, -, rfl⟩ | hk
    · rw [register_handle_new]
      exact .inr ⟨rfl, rfl⟩
    obtain ⟨hlt, -, -⟩ := hp.entry _ _ k hk
    rw [register_handle_old hlt] at hk ⊢
    exact .inl (hp.listed k hk)
  holder p l hm := Nat.lt_succ_of_lt (hp.holder p l hm)
  lockKey p q l hm ho := by
    rcases (register_mem_opens q _).1 ho with ho | ⟨-, he⟩
    · exact hp.lockKey p q l hm ho
    · exact absurd he (Nat.ne_of_lt (hp.holder p l hm))

theorem members_locks_renameOpens (st : State) (oldName newName p : Path) :
    members (renameOpens st oldName newName).locks p =
      if p = oldName then []
      else if p = newName then members st.locks newName ++ members st.locks oldName
      else members st.locks p := by
  have hlocks : (renameOpens st oldName newName).locks =
      if members st.locks oldName = [] then st.locks
      else (st.locks.insert newName (members st.locks newName ++ members st.locks oldName)).erase
        oldName := rfl
  rw [hlocks]
  split
  · rename_i hnil
    by_cases ho : p = oldName
    · rw [if_pos ho, ho, hnil]
    rw [if_neg ho]
    by_cases hn : p = newName
    · rw [if_pos hn, hn, hnil, List.append_nil]
    · rw [if_neg hn]
  · rw [members_erase, members_insert]

theorem mem_renameOpens {oldName newName p h} :
    h ∈ members (renameOpens st oldName newName).opens p ↔
      (p = newName ∧ h ∈ members st.opens oldName) ∨ (p ≠ oldName ∧ h ∈ members st.opens p) := by
  rw [members_renameOpens]
  by_cases hn : p = newName
  · subst hn
    rw [if_pos rfl, mem_foldl_insert]
    by_cases ho : p = oldName
    · simp [ho]
    · simp [ho, or_comm]
  rw [if_neg hn]
  by_cases ho : p = oldName
  · subst ho
    simp [hn]
  · simp [hn, ho]

theorem mem_locks_renameOpens {oldName newName p l}
    (hm : l ∈ members (renameOpens st oldName newName).locks p) :
    (p = newName ∧ l ∈ members st.locks oldName) ∨ (p ≠ oldName ∧ l ∈ members st.locks p) := by
  rw [members_locks_renameOpens] at hm
  split at hm
  · cases hm
  rename_i hne
  split at hm
  · rename_i hn
    subst hn
    rcases List.mem_append.1 hm with hm | hm
    · exact .inr ⟨hne, hm⟩
    · exact .inl ⟨rfl, hm⟩
  · exact .inr ⟨hne, hm⟩

theorem placed_rename (hp : Placed st) (oldName newName : Path) :
    Placed (renameOpens st oldName newName) where
  key p h hm := by
    rw [renameOpens_handle]
    rcases mem_renameOpens.1 hm with ⟨rfl, ho⟩ | ⟨hne, ho⟩
    · rw [if_pos ho]
    rw [if_neg, hp.key p h ho]
    intro hold
    exact hne ((hp.key p h ho).symm.trans (hp.key oldName h hold))
  known p h hm := by
    rcases mem_renameOpens.1 hm with ⟨-, ho⟩ | ⟨-, ho⟩
    · exact hp.known oldName h ho
    · exact hp.known p h ho
  entry s id h hl := by
    rw [renameOpens_session, renameOpens_id]
    exact hp.entry s id h hl
  listed h hr := by
    have ho := hp.listed h ((renameOpens_registered st oldName newName h).1 hr)
    rw [mem_renameOpens, renameOpens_handle]
    by_cases hold : h ∈ members st.opens oldName
    · rw [if_pos hold]
      exact .inl ⟨rfl, hold⟩
    rw [if_neg hold]
    refine .inr ⟨?_, ho⟩
    intro he
    rw [he] at ho
    exact hold ho
  holder p l hm := by
    rcases mem_locks_renameOpens hm with ⟨-, hl⟩ | ⟨-, hl⟩
    · exact hp.holder oldName l hl
    · exact hp.holder p l hl
  lockKey p q l hm ho := by
    rcases mem_locks_renameOpens hm with ⟨rfl, hl⟩ | ⟨hne, hl⟩ <;>
      rcases mem_renameOpens.1 ho with ⟨rfl, hk⟩ | ⟨hq, hk⟩
    · rfl
    · exact absurd (hp.lockKey oldName q l hl hk) hq
    · exact absurd (hp.lockKey p oldName l hl hk).symm hne
    · exact hp.lockKey p q l hl hk

end Sections

variable (st : State) (s : SessionRef)

/-- One section. `updateSession` covers the authentication fields and the directory snapshots. -/
inductive Section where
  | newSession (conn : ConnRef) (draws : List UInt64)
  | updateSession (s : SessionRef) (r : Session)
  | closeSession (s : SessionRef)
  | treeConnect (s : SessionRef)
  | treeDisconnect (s : SessionRef) (treeID : UInt32)
  | addHandle (s : SessionRef) (h : OpenHandle)
  | commitHandle (h : HandleRef) (f : FileRef) (info : FileInfo)
  | abortHandle (h : HandleRef)
  | closeHandle (h : HandleRef)
  | setDisposition (h : HandleRef) (pending : Bool)
  | rename (oldName newName : Path)
  | lock (h : HandleRef) (es : List LockElement)

/-- The fields of a session that are outside the tables of trees and handles. -/
def withFields (old new : Session) : Session :=
  { old with
    authenticated := new.authenticated
    authenticating := new.authenticating
    sign := new.sign
    signingKey := new.signingKey
    preauth := new.preauth
    challenge := new.challenge
    snapshots := new.snapshots }

def enter (st : State) : Section → Option State
  | .newSession conn draws => some (newSession st conn draws).2
  | .updateSession s r =>
    if s < st.nextSession then some (st.setSession s (withFields (st.session s) r)) else none
  | .closeSession s => if s < st.nextSession then some (closeSession st s).2 else none
  | .treeConnect s => if s < st.nextSession then some (treeConnect st s).2 else none
  | .treeDisconnect s treeID =>
    if s < st.nextSession then some (treeDisconnect st s treeID).2 else none
  | .addHandle s h => if s < st.nextSession then some (addHandle st s h).2 else none
  | .commitHandle h f info => if h < st.nextOpen then some (commitHandle st h f info).2 else none
  | .abortHandle h => if h < st.nextOpen then some (abortHandle st h) else none
  | .closeHandle h => if h < st.nextOpen then some (closeHandle st h) else none
  | .setDisposition h pending => if h < st.nextOpen then some (setDisposition st h pending) else none
  | .rename oldName newName => some (renameOpens st oldName newName)
  | .lock h es => if h < st.nextOpen then some (lock st h es).2 else none

theorem closeSession_locks : (closeSession st s).2.locks = st.locks := by
  rw [closeSession]
  split <;> rfl

theorem treeConnect_locks : (treeConnect st s).2.locks = st.locks := by
  rw [treeConnect]
  split <;> rfl

theorem treeDisconnect_locks (treeID : UInt32) :
    (treeDisconnect st s treeID).2.locks = st.locks := by
  rw [treeDisconnect]
  split <;> rfl

theorem commitHandle_locks (h : HandleRef) (f : FileRef) (info : FileInfo) :
    (commitHandle st h f info).2.locks = st.locks := by
  rw [commitHandle]
  split <;> rfl

theorem enter_placed (e : Section) (st' : State) (hp : Placed st)
    (h : enter st e = some st') : Placed st' := by
  cases e with
  | newSession conn draws =>
    cases h
    rcases newSession_cases st conn draws with h | ⟨id, -, -, h⟩
    · rw [h]
      exact hp
    · rw [h]
      exact hp.openSession id conn
  | updateSession s r =>
    obtain ⟨-, rfl⟩ := Option.ite_some_none_eq_some.1 h
    exact hp.of_same_locks (same_setSession rfl rfl rfl) rfl
  | closeSession s =>
    obtain ⟨-, rfl⟩ := Option.ite_some_none_eq_some.1 h
    exact hp.of_same_locks (closeSession_same st s) (closeSession_locks st s)
  | treeConnect s =>
    obtain ⟨-, rfl⟩ := Option.ite_some_none_eq_some.1 h
    exact hp.of_same_locks (treeConnect_same st s) (treeConnect_locks st s)
  | treeDisconnect s treeID =>
    obtain ⟨-, rfl⟩ := Option.ite_some_none_eq_some.1 h
    exact hp.of_same_locks (treeDisconnect_same st s treeID) (treeDisconnect_locks st s treeID)
  | addHandle s r =>
    obtain ⟨-, rfl⟩ := Option.ite_some_none_eq_some.1 h
    rcases addHandle_cases st s r with ⟨_, h⟩ | ⟨h, -, -⟩
    · rw [h]
      exact hp
    · rw [h]
      exact placed_register hp s r
  | commitHandle k f info =>
    obtain ⟨-, rfl⟩ := Option.ite_some_none_eq_some.1 h
    exact hp.of_same_locks (commitHandle_same st k f info) (commitHandle_locks st k f info)
  | abortHandle k =>
    obtain ⟨-, rfl⟩ := Option.ite_some_none_eq_some.1 h
    exact hp.unregister (abortHandle_unregisters st k) fun _ _ hm => hm
  | closeHandle k =>
    obtain ⟨-, rfl⟩ := Option.ite_some_none_eq_some.1 h
    exact hp.unregister (closeHandle_unregisters st k) fun _ _ hm => closeHandle_mem_locks hm
  | setDisposition k pending =>
    obtain ⟨-, rfl⟩ := Option.ite_some_none_eq_some.1 h
    exact hp.of_same_locks (setDisposition_same st k pending) rfl
  | rename oldName newName =>
    cases h
    exact placed_rename hp oldName newName
  | lock k es =>
    obtain ⟨hk, rfl⟩ := Option.ite_some_none_eq_some.1 h
    apply hp.of_same (lock_same st k es)
    intro p l hm
    rcases lock_mem hm with hm | ⟨rfl, hpath⟩
    · exact .inl hm
    · exact .inr ⟨hk, hpath⟩

theorem run_placed {es st} (h : run enter newServerState es = some st) : Placed st :=
  run_invariant enter_placed placed_new h

end SmbSections
