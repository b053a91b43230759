import FacetFS.SmbState
import FacetFS.EventSystem

/-! # The handle tables of the SMB server

The opens of a path are exactly the handles with that path that their sessions list, and the ids of
a session come from its counter. One lemma for each of the ways a section can change this: it
registers a handle, unregisters one, moves the opens of a path, adds a session, or does none of
these. -/
namespace SmbTables

open SmbState GroupIndex
open Function (update update_of_ne)

section FileIDs

theorem nextHandleNumber_toNat {n} (h : n.toNat + 1 < 2 ^ 64) :
    (nextHandleNumber n).toNat = n.toNat + 1 := by
  have hs : (n + 1).toNat = n.toNat + 1 := by
    rw [UInt64.toNat_add]
    exact Nat.mod_eq_of_lt h
  have hne : n + 1 ≠ 0 := by
    intro h0
    rw [h0] at hs
    simp at hs
  rw [nextHandleNumber, if_neg hne, hs]

theorem nextHandleNumber_ne_zero (n : UInt64) : nextHandleNumber n ≠ 0 := by
  by_cases h : n + 1 = 0
  · rw [nextHandleNumber, if_pos h]
    have hn : n + 2 = (n + 1) + 1 := (UInt64.add_assoc n 1 1).symm
    rw [hn, h]
    decide
  · rw [nextHandleNumber, if_neg h]
    exact h

/-- The number that equals the seal takes the place of the zero it would be sealed to. -/
theorem sealHandle_inj {mask m n} (hm : m ≠ 0) (hn : n ≠ 0)
    (h : sealHandle mask m = sealHandle mask n) : m = n := by
  have zero_of : ∀ {a : UInt64}, a ^^^ mask = mask → a = 0 := by
    intro a ha
    have h0 : a ^^^ mask = 0 ^^^ mask := by simpa using ha
    exact (UInt64.xor_left_inj mask).1 h0
  by_cases hm0 : m ^^^ mask = 0
  · obtain rfl : m = mask := UInt64.xor_eq_zero_iff.1 hm0
    by_cases hn0 : n ^^^ m = 0
    · exact (UInt64.xor_eq_zero_iff.1 hn0).symm
    · simp only [sealHandle, UInt64.xor_self, if_true, if_neg hn0] at h
      exact absurd (zero_of h.symm) hn
  by_cases hn0 : n ^^^ mask = 0
  · obtain rfl : n = mask := UInt64.xor_eq_zero_iff.1 hn0
    simp only [sealHandle, UInt64.xor_self, if_true, if_neg hm0] at h
    exact absurd (zero_of h) hm
  · simp only [sealHandle, if_neg hm0, if_neg hn0] at h
    exact (UInt64.xor_left_inj mask).1 h

end FileIDs

/-- The opens of a path are the registered handles with that path, and a table entry names a handle
of that session under its own id. -/
structure Indexed (st : State) : Prop where
  listed : ∀ p h, h ∈ members st.opens p ↔ (st.handle h).path = p ∧ st.Registered h
  nodup : ∀ p, (members st.opens p).Nodup
  entry : ∀ s id h, (st.session s).handles.lookup id = some h →
    h < st.nextOpen ∧ (st.handle h).session = s ∧ (st.handle h).id = id
  owner : ∀ h, h < st.nextOpen → (st.handle h).session < st.nextSession

/-- Ids come from the handle counter of the session, and no two handles of a session share one. -/
structure Numbered (st : State) : Prop where
  number : ∀ h, h < st.nextOpen → ∃ n : UInt64, n ≠ 0 ∧
    n ≤ (st.session (st.handle h).session).nextHandle ∧
    (st.handle h).id.low = sealHandle (st.session (st.handle h).session).handleSeal n
  unique : ∀ h k, h < st.nextOpen → k < st.nextOpen → (st.handle h).session = (st.handle k).session →
    (st.handle h).id = (st.handle k).id → h = k

def Apart (st : State) : Prop :=
  ∀ p h k, h ∈ members st.opens p → k ∈ members st.opens p → h ≠ k →
    shareConflict (st.handle h).access (st.handle h).share
      (st.handle k).access (st.handle k).share = false

theorem indexed_new : Indexed newServerState := by
  refine ⟨fun p h => ?_, fun p => ?_, fun s id h hl => ?_, fun h hh => ?_⟩
  · simp [newServerState, State.Registered, newSessionRecord]
  · simp [newServerState]
  · simp [newServerState, newSessionRecord] at hl
  · exact absurd hh (Nat.not_lt_zero h)

theorem numbered_new : Numbered newServerState := by
  refine ⟨fun h hh => ?_, fun h k hh => ?_⟩
  · exact absurd hh (Nat.not_lt_zero h)
  · exact absurd hh (Nat.not_lt_zero h)

section Frame

variable {st st' : State}

/-- What sections that neither register nor unregister leave as it was. -/
structure SameRegistry (st st' : State) : Prop where
  opens : st'.opens = st.opens
  handles : ∀ s, (st'.session s).handles = (st.session s).handles
  counter : ∀ s, (st'.session s).nextHandle = (st.session s).nextHandle
  mask : ∀ s, (st'.session s).handleSeal = (st.session s).handleSeal
  id : ∀ h, (st'.handle h).id = (st.handle h).id
  session : ∀ h, (st'.handle h).session = (st.handle h).session
  path : ∀ h, (st'.handle h).path = (st.handle h).path
  access : ∀ h, (st'.handle h).access = (st.handle h).access
  share : ∀ h, (st'.handle h).share = (st.handle h).share
  nextOpen : st'.nextOpen = st.nextOpen
  nextSession : st'.nextSession = st.nextSession

theorem SameRegistry.registered (h : SameRegistry st st') (k : HandleRef) :
    st'.Registered k ↔ st.Registered k := by
  rw [State.Registered, State.Registered, h.handles, h.id, h.session]

theorem Indexed.of_same (hi : Indexed st) (h : SameRegistry st st') : Indexed st' where
  listed p k := by
    rw [h.opens, hi.listed, h.path, h.registered]
  nodup p := by
    rw [h.opens]
    exact hi.nodup p
  entry s id k hl := by
    rw [h.handles] at hl
    rw [h.nextOpen, h.session, h.id]
    exact hi.entry s id k hl
  owner k hk := by
    rw [h.session, h.nextSession]
    rw [h.nextOpen] at hk
    exact hi.owner k hk

theorem Numbered.of_same (hn : Numbered st) (h : SameRegistry st st') : Numbered st' where
  number k hk := by
    rw [h.session, h.counter, h.mask, h.id]
    rw [h.nextOpen] at hk
    exact hn.number k hk
  unique j k hj hk hs hid := by
    rw [h.nextOpen] at hj hk
    rw [h.session, h.session] at hs
    rw [h.id, h.id] at hid
    exact hn.unique j k hj hk hs hid

theorem Apart.of_same (ha : Apart st) (h : SameRegistry st st') : Apart st' := by
  intro p j k hj hk hne
  rw [h.opens] at hj hk
  rw [h.access, h.access, h.share, h.share]
  exact ha p j k hj hk hne

theorem same_setSession {s r}
    (hh : r.handles = (st.session s).handles) (hc : r.nextHandle = (st.session s).nextHandle)
    (hm : r.handleSeal = (st.session s).handleSeal) : SameRegistry st (st.setSession s r) :=
  ⟨rfl, update_field hh, update_field hc, update_field hm, fun _ => rfl, fun _ => rfl,
    fun _ => rfl, fun _ => rfl, fun _ => rfl, rfl, rfl⟩

theorem same_setHandle {h r} (hid : r.id = (st.handle h).id)
    (hs : r.session = (st.handle h).session) (hp : r.path = (st.handle h).path)
    (ha : r.access = (st.handle h).access) (hsh : r.share = (st.handle h).share) :
    SameRegistry st (st.setHandle h r) :=
  ⟨rfl, fun _ => rfl, fun _ => rfl, fun _ => rfl, update_field hid, update_field hs,
    update_field hp, update_field ha, update_field hsh, rfl, rfl⟩

end Frame

section Unregister

variable {st st' : State} {h : HandleRef}

/-- What aborting and closing a handle have in common. -/
structure Unregisters (st st' : State) (h : HandleRef) : Prop where
  sessions : st'.sessions = st.sessions
  sessionID : ∀ s, (st'.session s).id = (st.session s).id
  opens : st'.opens = drop st.opens (st.handle h).path h
  handles : ∀ s, (st'.session s).handles =
    if s = (st.handle h).session then (st.session s).handles.erase (st.handle h).id
    else (st.session s).handles
  counter : ∀ s, (st'.session s).nextHandle = (st.session s).nextHandle
  mask : ∀ s, (st'.session s).handleSeal = (st.session s).handleSeal
  handle : st'.handle = st.handle
  nextOpen : st'.nextOpen = st.nextOpen
  nextSession : st'.nextSession = st.nextSession

theorem unregisters_setSession (locks : Index Path ByteLock) {r}
    (hi : r.id = (st.session (st.handle h).session).id)
    (hh : r.handles = (st.session (st.handle h).session).handles.erase (st.handle h).id)
    (hc : r.nextHandle = (st.session (st.handle h).session).nextHandle)
    (hm : r.handleSeal = (st.session (st.handle h).session).handleSeal) :
    Unregisters st { st.setSession (st.handle h).session r with
      opens := drop st.opens (st.handle h).path h
      locks := locks } h := by
  refine ⟨rfl, update_field hi, rfl, fun s => ?_, update_field hc, update_field hm, rfl, rfl, rfl⟩
  by_cases hs : s = (st.handle h).session
  · subst hs
    simpa [State.setSession] using hh
  · simp [State.setSession, hs]

theorem abortHandle_unregisters (st : State) (h : HandleRef) :
    Unregisters st (abortHandle st h) h :=
  unregisters_setSession st.locks rfl rfl rfl rfl

theorem closeHandle_unregisters (st : State) (h : HandleRef) :
    Unregisters st (closeHandle st h) h :=
  unregisters_setSession _ rfl rfl rfl rfl

theorem Unregisters.current (hu : Unregisters st st' h) (s : SessionRef) :
    st'.Current s ↔ st.Current s := by
  rw [State.Current, State.Current, hu.sessions, hu.sessionID]

theorem Unregisters.registered (hu : Unregisters st st' h) (hi : Indexed st) (hn : Numbered st)
    (hh : h < st.nextOpen) (k : HandleRef) : st'.Registered k ↔ st.Registered k ∧ k ≠ h := by
  rw [State.Registered, State.Registered, hu.handle, hu.handles]
  by_cases hs : (st.handle k).session = (st.handle h).session
  · rw [if_pos hs]
    by_cases hid : (st.handle k).id = (st.handle h).id
    · rw [hid, AList.lookup_erase]
      constructor
      · intro hf
        cases hf
      · rintro ⟨hl, hne⟩
        have hk := (hi.entry _ _ _ hl).1
        exact absurd (hn.unique k h hk hh hs hid) hne
    rw [AList.lookup_erase_ne hid]
    constructor
    · intro hl
      refine ⟨hl, ?_⟩
      intro he
      exact hid (by rw [he])
    · exact And.left
  rw [if_neg hs]
  constructor
  · intro hl
    refine ⟨hl, ?_⟩
    intro he
    exact hs (by rw [he])
  · exact And.left

theorem Unregisters.mem_opens (hu : Unregisters st st' h) (hi : Indexed st) (p : Path)
    (k : HandleRef) : k ∈ members st'.opens p ↔ k ∈ members st.opens p ∧ k ≠ h := by
  rw [hu.opens, members_drop]
  by_cases hp : p = (st.handle h).path
  · subst hp
    rw [if_pos rfl, (hi.nodup _).mem_erase_iff]
    exact And.comm
  rw [if_neg hp]
  constructor
  · intro hk
    refine ⟨hk, ?_⟩
    rintro rfl
    exact hp ((hi.listed p k).1 hk).1.symm
  · exact And.left

theorem Indexed.unregister (hi : Indexed st) (hn : Numbered st) (hu : Unregisters st st' h)
    (hh : h < st.nextOpen) : Indexed st' where
  listed p k := by
    rw [hu.mem_opens hi, hu.registered hi hn hh, hi.listed, hu.handle]
    tauto
  nodup p := by
    rw [hu.opens, members_drop]
    by_cases hp : p = (st.handle h).path
    · rw [if_pos hp]
      exact (hi.nodup _).erase h
    · rw [if_neg hp]
      exact hi.nodup p
  entry s id k hl := by
    rw [hu.handles] at hl
    rw [hu.nextOpen, hu.handle]
    by_cases hs : s = (st.handle h).session
    · rw [if_pos hs] at hl
      by_cases hid : id = (st.handle h).id
      · rw [hid, AList.lookup_erase] at hl
        cases hl
      · rw [AList.lookup_erase_ne hid] at hl
        exact hi.entry s id k hl
    · rw [if_neg hs] at hl
      exact hi.entry s id k hl
  owner k hk := by
    rw [hu.handle, hu.nextSession]
    rw [hu.nextOpen] at hk
    exact hi.owner k hk

theorem Numbered.unregister (hn : Numbered st) (hu : Unregisters st st' h) : Numbered st' where
  number k hk := by
    rw [hu.handle, hu.counter, hu.mask]
    rw [hu.nextOpen] at hk
    exact hn.number k hk
  unique j k hj hk hs hid := by
    rw [hu.nextOpen] at hj hk
    rw [hu.handle] at hs hid
    exact hn.unique j k hj hk hs hid

theorem Apart.unregister (ha : Apart st) (hi : Indexed st) (hu : Unregisters st st' h) :
    Apart st' := by
  intro p j k hj hk hne
  rw [hu.mem_opens hi] at hj hk
  rw [hu.handle]
  exact ha p j k hj.1 hk.1 hne

end Unregister

section Register

variable {st : State} {s : SessionRef} {h : OpenHandle}

theorem refusal_none {ks} (hr : refusal st h ks = none) {k} (hk : k ∈ ks) :
    shareConflict h.access h.share (st.handle k).access (st.handle k).share = false := by
  induction ks with
  | nil => cases hk
  | cons a as ih =>
    rw [refusal] at hr
    split at hr
    · cases hr
    split at hr
    · cases hr
    rename_i hc
    rcases List.mem_cons.1 hk with rfl | hk
    · simpa using hc
    · exact ih hr hk

theorem addHandle_cases (st : State) (s : SessionRef) (h : OpenHandle) :
    (∃ status, addHandle st s h = (.error status, st)) ∨
    (addHandle st s h = (.ok st.nextOpen, register st s h) ∧ st.Current s ∧
      refusal st h (members st.opens h.path) = none) := by
  rw [addHandle]
  split
  · exact .inl ⟨_, rfl⟩
  rename_i hcur
  split
  · exact .inl ⟨_, rfl⟩
  split
  · exact .inl ⟨_, rfl⟩
  · rename_i hr
    exact .inr ⟨rfl, not_not.1 hcur, hr⟩

/-- The id the next registered handle of a session gets. -/
def nextID (st : State) (s : SessionRef) : FileID :=
  let n := sealHandle (st.session s).handleSeal (nextHandleNumber (st.session s).nextHandle)
  ⟨n, n⟩

theorem register_handle_new (st : State) (s : SessionRef) (h : OpenHandle) :
    (register st s h).handle st.nextOpen =
    { h with id := nextID st s, session := s, file := none } := by
  simp [register, nextID]

theorem register_handle_old {k} (hk : k < st.nextOpen) :
    (register st s h).handle k = st.handle k := by
  have hne : k ≠ st.nextOpen := Nat.ne_of_lt hk
  simp [register, update_of_ne hne]

theorem register_handles_self : ((register st s h).session s).handles =
    (st.session s).handles.insert (nextID st s) st.nextOpen := by
  simp [register, nextID]

theorem register_session_other {t} (ht : t ≠ s) : (register st s h).session t = st.session t := by
  simp [register, update_of_ne ht]

theorem register_lookup {t id k} (hk : ((register st s h).session t).handles.lookup id = some k) :
    (t = s ∧ id = nextID st s ∧ k = st.nextOpen) ∨ (st.session t).handles.lookup id = some k := by
  by_cases ht : t = s
  · subst ht
    rw [register_handles_self] at hk
    by_cases hid : id = nextID st t
    · subst hid
      rw [AList.lookup_insert] at hk
      exact .inl ⟨rfl, rfl, (Option.some.inj hk).symm⟩
    · rw [AList.lookup_insert_ne hid] at hk
      exact .inr hk
  · rw [register_session_other ht] at hk
    exact .inr hk

theorem register_handleSeal (t : SessionRef) :
    ((register st s h).session t).handleSeal = (st.session t).handleSeal := by
  by_cases ht : t = s
  · subst ht
    simp [register]
  · rw [register_session_other ht]

theorem register_current (t : SessionRef) : (register st s h).Current t ↔ st.Current t := by
  have hid : ((register st s h).session t).id = (st.session t).id := by
    by_cases ht : t = s
    · subst ht
      simp [register]
    · rw [register_session_other ht]
  rw [State.Current, State.Current, hid]
  rfl

theorem Numbered.fresh (hn : Numbered st) (h64 : (st.session s).nextHandle.toNat + 1 < 2 ^ 64) {k}
    (hk : k < st.nextOpen) (hs : (st.handle k).session = s) : (st.handle k).id ≠ nextID st s := by
  intro he
  obtain ⟨n, hn0, hle, hid⟩ := hn.number k hk
  rw [he, hs] at hid
  rw [hs] at hle
  have heq := sealHandle_inj (nextHandleNumber_ne_zero _) hn0 hid
  have hnum := nextHandleNumber_toNat h64
  rw [heq] at hnum
  rw [UInt64.le_iff_toNat_le] at hle
  omega

theorem register_registered (hfresh : ∀ k, k < st.nextOpen → (st.handle k).session = s →
    (st.handle k).id ≠ nextID st s) {k}
    (hk : k < st.nextOpen) : (register st s h).Registered k ↔ st.Registered k := by
  rw [State.Registered, State.Registered, register_handle_old hk]
  by_cases hs : (st.handle k).session = s
  · rw [hs, register_handles_self, AList.lookup_insert_ne (hfresh k hk hs)]
  · rw [register_session_other hs]

theorem register_registered_new (st : State) (s : SessionRef) (h : OpenHandle) :
    (register st s h).Registered st.nextOpen := by
  rw [State.Registered, register_handle_new, register_handles_self, AList.lookup_insert]

theorem register_mem_opens (p : Path) (k : HandleRef) : k ∈ members (register st s h).opens p ↔
      k ∈ members st.opens p ∨ (p = h.path ∧ k = st.nextOpen) := by
  have ho : (register st s h).opens = put st.opens h.path st.nextOpen := rfl
  rw [ho, members_put]
  by_cases hp : p = h.path
  · subst hp
    simp [or_comm]
  · simp [hp]

theorem Indexed.not_mem_next (hi : Indexed st) (p : Path) : st.nextOpen ∉ members st.opens p := by
  intro hm
  exact absurd (hi.entry _ _ _ ((hi.listed p _).1 hm).2).1 (Nat.lt_irrefl _)

theorem Indexed.lt_of_mem (hi : Indexed st) {p k} (hm : k ∈ members st.opens p) : k < st.nextOpen :=
  (hi.entry _ _ _ ((hi.listed p k).1 hm).2).1

theorem Indexed.register (hi : Indexed st) (hs : s < st.nextSession)
    (hfresh : ∀ k, k < st.nextOpen → (st.handle k).session = s → (st.handle k).id ≠ nextID st s) :
    Indexed (register st s h) where
  listed p k := by
    rw [register_mem_opens]
    rcases lt_trichotomy k st.nextOpen with hk | rfl | hk
    · have hne : k ≠ st.nextOpen := Nat.ne_of_lt hk
      rw [register_registered hfresh hk, register_handle_old hk, hi.listed]
      simp [hne]
    · rw [register_handle_new]
      have hm := hi.not_mem_next p
      have hr := register_registered_new st s h
      simp [hm, hr, eq_comm]
    have hne : k ≠ st.nextOpen := Nat.ne_of_gt hk
    have hm : k ∉ members st.opens p := by
      intro hm
      exact absurd (hi.lt_of_mem hm) (Nat.not_lt.2 (Nat.le_of_lt hk))
    have hr : ¬ (SmbState.register st s h).Registered k := by
      intro hr
      have hhk : (SmbState.register st s h).handle k = st.handle k := by
        simp [SmbState.register, update_of_ne hne]
      rw [State.Registered, hhk] at hr
      by_cases ht : (st.handle k).session = s
      · rw [ht, register_handles_self] at hr
        by_cases hid : (st.handle k).id = nextID st s
        · rw [hid, AList.lookup_insert] at hr
          exact hne (Option.some.inj hr).symm
        · rw [AList.lookup_insert_ne hid] at hr
          exact absurd (hi.entry _ _ _ hr).1 (Nat.not_lt.2 (Nat.le_of_lt hk))
      · rw [register_session_other ht] at hr
        exact absurd (hi.entry _ _ _ hr).1 (Nat.not_lt.2 (Nat.le_of_lt hk))
    simp [hm, hr, hne]
  nodup p := by
    have ho : (SmbState.register st s h).opens = put st.opens h.path st.nextOpen := rfl
    rw [ho, members_put]
    by_cases hp : p = h.path
    · rw [if_pos hp]
      exact (hi.nodup _).insert
    · rw [if_neg hp]
      exact hi.nodup p
  entry t id k hl := by
    have old : (st.session t).handles.lookup id = some k →
        k < (SmbState.register st s h).nextOpen ∧
          ((SmbState.register st s h).handle k).session = t ∧
          ((SmbState.register st s h).handle k).id = id := by
      intro hl
      obtain ⟨hk, hs, hid⟩ := hi.entry t id k hl
      rw [register_handle_old hk]
      exact ⟨Nat.lt_succ_of_lt hk, hs, hid⟩
    by_cases ht : t = s
    · subst ht
      rw [register_handles_self] at hl
      by_cases hid : id = nextID st t
      · rw [hid, AList.lookup_insert] at hl
        cases hl
        rw [register_handle_new]
        exact ⟨Nat.lt_succ_self _, rfl, hid.symm⟩
      · rw [AList.lookup_insert_ne hid] at hl
        exact old hl
    · rw [register_session_other ht] at hl
      exact old hl
  owner k hk := by
    rcases Nat.lt_succ_iff_lt_or_eq.1 hk with hk | rfl
    · rw [register_handle_old hk]
      exact hi.owner k hk
    · rw [register_handle_new]
      exact hs

theorem register_nextHandle (h64 : (st.session s).nextHandle.toNat + 1 < 2 ^ 64) (t : SessionRef) :
    (st.session t).nextHandle ≤ ((register st s h).session t).nextHandle := by
  by_cases ht : t = s
  · subst ht
    have hr : ((register st t h).session t).nextHandle =
        nextHandleNumber (st.session t).nextHandle := by
      simp [register]
    rw [hr, UInt64.le_iff_toNat_le, nextHandleNumber_toNat h64]
    exact Nat.le_succ _
  · rw [register_session_other ht]
    exact UInt64.le_refl _

theorem Numbered.register (hn : Numbered st)
    (h64 : (st.session s).nextHandle.toNat + 1 < 2 ^ 64) : Numbered (register st s h) where
  number k hk := by
    rcases Nat.lt_succ_iff_lt_or_eq.1 hk with hk | rfl
    · obtain ⟨n, hn0, hle, hid⟩ := hn.number k hk
      rw [register_handle_old hk, register_handleSeal]
      exact ⟨n, hn0, UInt64.le_trans hle (register_nextHandle h64 _), hid⟩
    refine ⟨nextHandleNumber (st.session s).nextHandle, nextHandleNumber_ne_zero _, ?_, ?_⟩
    · rw [register_handle_new]
      simp [SmbState.register]
    · rw [register_handle_new, register_handleSeal]
      rfl
  unique j k hj hk hs hid := by
    rcases Nat.lt_succ_iff_lt_or_eq.1 hj with hj | rfl <;>
      rcases Nat.lt_succ_iff_lt_or_eq.1 hk with hk | rfl
    · rw [register_handle_old hj, register_handle_old hk] at hs hid
      exact hn.unique j k hj hk hs hid
    · rw [register_handle_old hj, register_handle_new] at hs hid
      exact absurd hid (hn.fresh h64 hj hs)
    · rw [register_handle_old hk, register_handle_new] at hs hid
      exact absurd hid.symm (hn.fresh h64 hk hs.symm)
    · rfl

theorem Apart.register (ha : Apart st) (hi : Indexed st)
    (hr : refusal st h (members st.opens h.path) = none) : Apart (register st s h) := by
  intro p j k hj hk hne
  rw [register_mem_opens] at hj hk
  rcases hj with hj | ⟨rfl, rfl⟩
  · rw [register_handle_old (hi.lt_of_mem hj)]
    rcases hk with hk | ⟨rfl, rfl⟩
    · rw [register_handle_old (hi.lt_of_mem hk)]
      exact ha p j k hj hk hne
    · rw [register_handle_new, shareConflict_comm]
      exact refusal_none hr hj
  rw [register_handle_new]
  rcases hk with hk | ⟨-, rfl⟩
  · rw [register_handle_old (hi.lt_of_mem hk)]
    exact refusal_none hr hk
  · exact absurd rfl hne

end Register

section Rename

variable {st : State} {oldName newName : Path}

theorem mem_foldl_insert {hs l : List HandleRef} {h : HandleRef} :
    h ∈ hs.foldl (fun l v => l.insert v) l ↔ h ∈ l ∨ h ∈ hs := by
  induction hs generalizing l with
  | nil => simp
  | cons a as ih =>
    rw [List.foldl_cons, ih, List.mem_insert_iff, List.mem_cons]
    tauto

theorem nodup_foldl_insert {hs l : List HandleRef} (hl : l.Nodup) :
    (hs.foldl (fun l v => l.insert v) l).Nodup := by
  induction hs generalizing l with
  | nil => exact hl
  | cons a as ih =>
    apply ih
    exact hl.insert

theorem members_renameOpens (st : State) (oldName newName p : Path) :
    members (renameOpens st oldName newName).opens p =
      if p = newName then
        (members st.opens oldName).foldl (fun l h => l.insert h)
          (if newName = oldName then [] else members st.opens newName)
      else if p = oldName then [] else members st.opens p := by
  have ho : (renameOpens st oldName newName).opens = (members st.opens oldName).foldl
      (fun ix h => put ix newName h) ((st.opens.erase oldName).insert newName
        (members (st.opens.erase oldName) newName)) := rfl
  rw [ho, members_foldl_put, members_insert, members_insert, if_pos rfl, members_erase,
    members_erase]
  by_cases hp : p = newName
  · rw [if_pos hp, if_pos hp]
  · rw [if_neg hp, if_neg hp, if_neg hp]

theorem renameOpens_handle (st : State) (oldName newName : Path) (h : HandleRef) :
    (renameOpens st oldName newName).handle h =
      if h ∈ members st.opens oldName then { st.handle h with path := newName }
      else st.handle h := rfl

theorem renameOpens_id (st : State) (oldName newName : Path) (h : HandleRef) :
    ((renameOpens st oldName newName).handle h).id = (st.handle h).id := by
  rw [renameOpens_handle]
  split <;> rfl

theorem renameOpens_session (st : State) (oldName newName : Path) (h : HandleRef) :
    ((renameOpens st oldName newName).handle h).session = (st.handle h).session := by
  rw [renameOpens_handle]
  split <;> rfl

theorem renameOpens_registered (st : State) (oldName newName : Path) (h : HandleRef) :
    (renameOpens st oldName newName).Registered h ↔ st.Registered h := by
  rw [State.Registered, State.Registered, renameOpens_id, renameOpens_session]
  rfl

theorem Indexed.renameOpens (hi : Indexed st) (oldName newName : Path) :
    Indexed (renameOpens st oldName newName) where
  listed p h := by
    have hold := hi.listed oldName h
    rw [members_renameOpens, renameOpens_registered, renameOpens_handle]
    by_cases hm : h ∈ members st.opens oldName
    · rw [if_pos hm]
      have hr := (hold.1 hm).2
      by_cases hp : p = newName
      · rw [if_pos hp, mem_foldl_insert]
        simp [hm, hr, hp]
      rw [if_neg hp]
      have hnot : h ∉ if p = oldName then [] else members st.opens p := by
        split
        · exact List.not_mem_nil
        rename_i hne
        intro hq
        exact hne (((hi.listed p h).1 hq).1.symm.trans (hold.1 hm).1)
      simp [hnot, Ne.symm hp]
    rw [if_neg hm]
    by_cases hp : p = newName
    · subst hp
      rw [if_pos rfl, mem_foldl_insert]
      by_cases he : p = oldName
      · subst he
        rw [if_pos rfl, ← hi.listed]
        simp [hm]
      · rw [if_neg he, ← hi.listed]
        simp [hm]
    rw [if_neg hp]
    by_cases he : p = oldName
    · subst he
      rw [if_pos rfl, ← hi.listed]
      simp [hm]
    · rw [if_neg he]
      exact hi.listed p h
  nodup p := by
    rw [members_renameOpens]
    split
    · apply nodup_foldl_insert
      split
      · exact List.nodup_nil
      · exact hi.nodup _
    split
    · exact List.nodup_nil
    · exact hi.nodup p
  entry s id h hl := by
    rw [renameOpens_session, renameOpens_id]
    exact hi.entry s id h hl
  owner h hh := by
    rw [renameOpens_session]
    exact hi.owner h hh

theorem Numbered.renameOpens (hn : Numbered st) (oldName newName : Path) :
    Numbered (renameOpens st oldName newName) where
  number h hh := by
    rw [renameOpens_session, renameOpens_id]
    exact hn.number h hh
  unique h k hh hk hs hid := by
    rw [renameOpens_session, renameOpens_session] at hs
    rw [renameOpens_id, renameOpens_id] at hid
    exact hn.unique h k hh hk hs hid

end Rename

section Sections

variable (st : State) (id : UInt64) (h : HandleRef) (s : SessionRef)

theorem SameRegistry.refl : SameRegistry st st :=
  ⟨rfl, fun _ => rfl, fun _ => rfl, fun _ => rfl, fun _ => rfl, fun _ => rfl, fun _ => rfl,
    fun _ => rfl, fun _ => rfl, rfl, rfl⟩

theorem commitHandle_same (f : FileRef) (info : FileInfo) :
    SameRegistry st (commitHandle st h f info).2 := by
  rw [commitHandle]
  split
  · exact same_setHandle rfl rfl rfl rfl rfl
  · exact SameRegistry.refl st

theorem closeSession_same : SameRegistry st (closeSession st s).2 := by
  rw [closeSession]
  split
  · exact { SameRegistry.refl st with }
  · exact SameRegistry.refl st

theorem treeConnect_same : SameRegistry st (treeConnect st s).2 := by
  rw [treeConnect]
  split
  · exact SameRegistry.refl st
  · exact same_setSession rfl rfl rfl

theorem treeDisconnect_same (treeID : UInt32) : SameRegistry st (treeDisconnect st s treeID).2 := by
  rw [treeDisconnect]
  split
  · exact same_setSession rfl rfl rfl
  · exact SameRegistry.refl st

theorem setDisposition_same (pending : Bool) : SameRegistry st (setDisposition st h pending) :=
  same_setHandle rfl rfl rfl rfl rfl

theorem lock_same (es : List LockElement) : SameRegistry st (lock st h es).2 := by
  rw [lock]
  split <;> exact { SameRegistry.refl st with }

theorem newSession_cases (conn : ConnRef) (draws : List UInt64) :
    newSession st conn draws = (none, st) ∨
    ∃ id, id ≠ 0 ∧ st.sessions.lookup id = none ∧
      newSession st conn draws = (some st.nextSession, openSession st id conn) := by
  rw [newSession]
  split
  · exact .inl rfl
  split
  · exact .inl rfl
  rename_i id hf
  have hid := List.find?_some hf
  simp only [decide_eq_true_eq] at hid
  exact .inr ⟨id, hid.1, hid.2, rfl⟩

theorem openSession_session_old (conn : ConnRef) {s}
    (hs : s < st.nextSession) : (openSession st id conn).session s = st.session s :=
  update_of_ne (Nat.ne_of_lt hs) _ _

theorem openSession_lookup {st id conn s fid k}
    (hl : ((openSession st id conn).session s).handles.lookup fid = some k) :
    (st.session s).handles.lookup fid = some k := by
  by_cases hs : s = st.nextSession
  · subst hs
    simp [openSession, newSessionRecord] at hl
  · simpa [openSession, update_of_ne hs] using hl

theorem openSession_handle (conn : ConnRef) : (openSession st id conn).handle = st.handle := rfl

theorem Indexed.openSession {st} (hi : Indexed st) (id : UInt64) (conn : ConnRef) :
    Indexed (openSession st id conn) where
  listed p k := by
    refine (hi.listed p k).trans (and_congr_right fun _ => ⟨fun hr => ?_, openSession_lookup⟩)
    obtain ⟨hk, -, -⟩ := hi.entry _ _ _ hr
    rw [State.Registered, openSession_handle, openSession_session_old st id conn (hi.owner k hk)]
    exact hr
  nodup := hi.nodup
  entry s fid k hl := hi.entry s fid k (openSession_lookup hl)
  owner k hk := Nat.lt_succ_of_lt (hi.owner k hk)

theorem Numbered.openSession {st} (hn : Numbered st) (hi : Indexed st) (id : UInt64)
    (conn : ConnRef) : Numbered (openSession st id conn) where
  number k hk := by
    obtain ⟨n, h⟩ := hn.number k hk
    refine ⟨n, ?_⟩
    rw [openSession_handle, openSession_session_old st id conn (hi.owner k hk)]
    exact h
  unique := hn.unique
end Sections

section Locks

def Releases (h : HandleRef) (e : LockElement) (l : ByteLock) : Bool :=
  l.handle = h ∧ l.start = e.start ∧ l.stop = e.start + e.length

/-- A LOCK element that succeeds takes one lock of its handle out or puts one in. -/
theorem lockElement_cases {h e locks locks' held held'}
    (hl : lockElement h e locks held = .ok (locks', held')) :
    (e.flags &&& flagUnlock ≠ 0 ∧ locks.any (Releases h e) = true ∧
      locks' = locks.eraseP (Releases h e)) ∨
    ∃ write, e.flags &&& flagUnlock = 0 ∧ write = (e.flags &&& flagExclusive != 0) ∧
      locks' = locks ++ [⟨h, e.start, e.start + e.length, write⟩] ∧
      locks.any (conflicts h e.start (e.start + e.length) write) = false := by
  simp only [lockElement] at hl
  split at hl
  · cases hl
  split at hl
  · cases hl
  split at hl
  · rename_i hflag
    split at hl
    · rename_i hany
      obtain ⟨rfl, -⟩ := Prod.ext_iff.1 (Except.ok.inj hl)
      exact .inl ⟨hflag, hany, rfl⟩
    · cases hl
  rename_i hflag
  split at hl
  · cases hl
  split at hl
  · cases hl
  split at hl
  · cases hl
  · rename_i hany _
    obtain ⟨rfl, -⟩ := Prod.ext_iff.1 (Except.ok.inj hl)
    exact .inr ⟨_, not_not.1 hflag, rfl, rfl, Bool.eq_false_iff.2 hany⟩

theorem lockElements_mem {h es locks locks' held} (hl : lockElements h es locks held = .ok locks')
    {l} (hm : l ∈ locks') : l ∈ locks ∨ l.handle = h := by
  induction es generalizing locks held with
  | nil =>
    cases hl
    exact .inl hm
  | cons e es ih =>
    rw [lockElements] at hl
    split at hl
    · cases hl
    rename_i he
    rcases ih hl with hm | hm
    · rcases lockElement_cases he with ⟨-, -, rfl⟩ | ⟨write, -, -, rfl, -⟩
      · exact .inl (List.mem_of_mem_eraseP hm)
      · rcases List.mem_append.1 hm with hm | hm
        · exact .inl hm
        · obtain rfl := List.mem_singleton.1 hm
          exact .inr rfl
    · exact .inr hm

theorem lock_cases (st : State) (h : HandleRef) (es : List LockElement) :
    (∃ e, (lock st h es).1 = .error e ∧
      ∀ p, members (lock st h es).2.locks p = members st.locks p) ∨
    ∃ after held, (lock st h es).1 = .ok () ∧
      lockElements h es (members st.locks (st.handle h).path) held = .ok after ∧
      ∀ p, members (lock st h es).2.locks p =
        if p = (st.handle h).path then after else members st.locks p := by
  rw [lock]
  split
  · refine .inl ⟨_, rfl, fun p => (members_insert ..).trans ?_⟩
    split
    · rename_i hp
      rw [hp]
    · rfl
  · rename_i he
    exact .inr ⟨_, _, rfl, he, fun p => members_insert ..⟩

theorem lock_mem {st h es p l} (hm : l ∈ members (lock st h es).2.locks p) :
    l ∈ members st.locks p ∨ (l.handle = h ∧ (st.handle h).path = p) := by
  rcases lock_cases st h es with ⟨-, -, hsame⟩ | ⟨after, held, -, he, hlocks⟩
  · rw [hsame] at hm
    exact .inl hm
  rw [hlocks] at hm
  split at hm
  · rename_i hp
    rw [hp]
    exact (lockElements_mem he hm).imp_right fun hl => ⟨hl, rfl⟩
  · exact .inl hm

theorem closeHandle_mem_locks {st h p l}
    (hm : l ∈ members (closeHandle st h).locks p) : l ∈ members st.locks p := by
  have hlocks : (closeHandle st h).locks =
      if otherLocks st h = [] then st.locks.erase (st.handle h).path
      else st.locks.insert (st.handle h).path (otherLocks st h) := rfl
  rw [hlocks] at hm
  split at hm
  · rw [members_erase] at hm
    split at hm
    · cases hm
    · exact hm
  rw [members_insert] at hm
  split at hm
  · rename_i hp
    rw [hp]
    exact List.mem_of_mem_filter hm
  · exact hm

end Locks

end SmbTables
