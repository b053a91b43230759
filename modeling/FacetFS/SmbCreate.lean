import FacetFS.SmbTables

/-! # CREATE among other requests

A CREATE looks up its tree, reserves a handle, opens the file and commits the handle, and other
requests of the connection run between these steps. TREE_DISCONNECT, LOGOFF and the end of the
connection first take their tree or session away and note the handles they found; closing those
handles comes later, one by one. -/
namespace SmbCreate

open SmbState SmbTables GroupIndex EventSystem
open Function (update update_of_ne update_self)

inductive Stage where
  | looked
  | reserved (h : HandleRef)
  | opened (h : HandleRef) (f : FileRef)
  | failed (h : HandleRef)
  deriving DecidableEq

/-- A CREATE that has found its session and tree and has not been answered. -/
structure Flight where
  session : SessionRef
  treeID : UInt32
  stage : Stage
  deriving DecidableEq

/-- `closing` lists the handles that some request has found and is about to close. -/
structure System where
  tables : State
  creates : ℕ → Option Flight
  closing : List HandleRef
  isOpen : FileRef → Bool
  nextFile : FileRef

def start : System := ⟨newServerState, fun _ => none, [], fun _ => false, 0⟩

/-- Sessions are named by reference, as the requests hold them after their own lookup; a CREATE is
named by a request number. -/
inductive Event where
  | newSession (conn : ConnRef) (draws : List UInt64)
  | treeConnect (s : SessionRef)
  | createLookup (n : ℕ) (s : SessionRef) (treeID : UInt32)
  | createReserve (n : ℕ) (h : OpenHandle)
  | createOpen (n : ℕ)
  | createFail (n : ℕ)
  | createCommit (n : ℕ) (info : FileInfo)
  | createAbort (n : ℕ)
  | closeLookup (s : SessionRef) (treeID : UInt32) (id : FileID)
  | treeDisconnect (s : SessionRef) (treeID : UInt32)
  | closeSession (s : SessionRef)
  | finishClose (h : HandleRef)
  | lock (h : HandleRef) (es : List LockElement)
  | setDisposition (h : HandleRef) (pending : Bool)
  | rename (oldName newName : Path)

namespace System

variable (c : System)

def setTables (st : State) : System := { c with tables := st }

def setFlight (n : ℕ) (fl : Option Flight) : System :=
  { c with creates := update c.creates n fl }

def setOpen (f : FileRef) (b : Bool) : System := { c with isOpen := update c.isOpen f b }

def closeFile : Option FileRef → System
  | none => c
  | some f => c.setOpen f false

end System

def commits (c : System) (h : HandleRef) (f : FileRef) (info : FileInfo) : Bool :=
  (commitHandle c.tables h f info).1

def next (c : System) : Event → Option System
  | .newSession conn draws => some (c.setTables (newSession c.tables conn draws).2)
  | .treeConnect s =>
    if s < c.tables.nextSession then some (c.setTables (treeConnect c.tables s).2) else none
  | .createLookup n s treeID =>
    if c.creates n = none ∧ s < c.tables.nextSession ∧ treeID ∈ (c.tables.session s).trees then
      some (c.setFlight n (some ⟨s, treeID, .looked⟩))
    else none
  | .createReserve n h =>
    match c.creates n with
    | some ⟨s, treeID, .looked⟩ =>
      match addHandle c.tables s { h with treeID := treeID } with
      | (.ok k, st) => some ((c.setTables st).setFlight n (some ⟨s, treeID, .reserved k⟩))
      | (.error _, st) => some ((c.setTables st).setFlight n none)
    | _ => none
  | .createOpen n =>
    match c.creates n with
    | some ⟨s, treeID, .reserved h⟩ =>
      some { (c.setOpen c.nextFile true).setFlight n (some ⟨s, treeID, .opened h c.nextFile⟩) with
        nextFile := c.nextFile + 1 }
    | _ => none
  | .createFail n =>
    match c.creates n with
    | some ⟨s, treeID, .reserved h⟩ => some (c.setFlight n (some ⟨s, treeID, .failed h⟩))
    | some ⟨s, treeID, .opened h f⟩ =>
      some ((c.setOpen f false).setFlight n (some ⟨s, treeID, .failed h⟩))
    | _ => none
  | .createCommit n info =>
    match c.creates n with
    | some ⟨s, treeID, .opened h f⟩ =>
      if commits c h f info then
        some ((c.setTables (commitHandle c.tables h f info).2).setFlight n none)
      else some ((c.setOpen f false).setFlight n (some ⟨s, treeID, .failed h⟩))
    | _ => none
  | .createAbort n =>
    match c.creates n with
    | some ⟨_, _, .failed h⟩ => some ((c.setTables (abortHandle c.tables h)).setFlight n none)
    | _ => none
  | .closeLookup s treeID id =>
    match handle c.tables s treeID id with
    | none => some c
    | some h => some { c with closing := h :: c.closing }
  | .treeDisconnect s treeID =>
    if s < c.tables.nextSession then
      some { c.setTables (treeDisconnect c.tables s treeID).2 with
        closing := (treeDisconnect c.tables s treeID).1.getD [] ++ c.closing }
    else none
  | .closeSession s =>
    if s < c.tables.nextSession then
      some { c.setTables (closeSession c.tables s).2 with
        closing := (closeSession c.tables s).1 ++ c.closing }
    else none
  | .finishClose h =>
    if h ∈ c.closing then
      some { (c.setTables (closeHandle c.tables h)).closeFile (c.tables.handle h).file with
        closing := c.closing.erase h }
    else none
  | .lock h es => some (c.setTables (lock c.tables h es).2)
  | .setDisposition h pending => some (c.setTables (setDisposition c.tables h pending))
  | .rename oldName newName => some (c.setTables (renameOpens c.tables oldName newName))

def Stage.handle? : Stage → Option HandleRef
  | .looked => none
  | .reserved h => some h
  | .opened h _ => some h
  | .failed h => some h

/-- A tree is disconnected only while no CREATE under it is in flight, and no handle counter runs
through its 64 bits. -/
def Calm (c : System) : Event → Prop
  | .treeDisconnect s treeID =>
    ∀ n fl, c.creates n = some fl → ¬ (fl.session = s ∧ fl.treeID = treeID)
  | .createReserve n _ =>
    ∀ fl ∈ c.creates n, (c.tables.session fl.session).nextHandle.toNat + 1 < 2 ^ 64
  | _ => True

variable {h : HandleRef}

section Invariant

/-- The handle of a CREATE that may still be committed. -/
def Stage.pending? : Stage → Option HandleRef
  | .looked => none
  | .reserved h => some h
  | .opened h _ => some h
  | .failed _ => none

/-- What a CREATE in flight can rely on. While its session is in the map, the handle it reserved is
registered and nobody is about to close it. -/
structure Flying (c : System) (fl : Flight) : Prop where
  session : fl.session < c.tables.nextSession
  tree : fl.treeID ∈ (c.tables.session fl.session).trees
  handle : ∀ h, fl.stage.handle? = some h → h < c.tables.nextOpen ∧
    (c.tables.handle h).session = fl.session ∧ (c.tables.handle h).treeID = fl.treeID ∧
    (c.tables.handle h).file = none
  pending : ∀ h, fl.stage.pending? = some h → c.tables.Current fl.session →
    c.tables.Registered h ∧ h ∉ c.closing

/-- A handle that its session lists, under a session and a tree that are still there. -/
def Attached (st : State) (h : HandleRef) : Prop :=
  st.Registered h ∧ st.Current (st.handle h).session ∧
    (st.handle h).treeID ∈ (st.session (st.handle h).session).trees

/-- Someone is left to close the file: the CREATE that opened it, a request that has the handle in
hand, or any later request that ends the handle, its tree or its session. -/
def Owned (c : System) (f : FileRef) : Prop :=
  (∃ n fl h, c.creates n = some fl ∧ fl.stage = .opened h f) ∨
  ∃ h, (c.tables.handle h).file = some f ∧ c.tables.Registered h ∧
    (Attached c.tables h ∨ h ∈ c.closing)

structure Invariant (c : System) : Prop where
  indexed : Indexed c.tables
  numbered : Numbered c.tables
  flying : ∀ n fl, c.creates n = some fl → Flying c fl
  apart : ∀ n m fl fm h, c.creates n = some fl → c.creates m = some fm →
    fl.stage.handle? = some h → fm.stage.handle? = some h → n = m
  closing : ∀ h, h ∈ c.closing → h < c.tables.nextOpen
  owned : ∀ f, c.isOpen f = true → Owned c f

theorem handle_of_pending {stage : Stage} (hp : stage.pending? = some h) :
    stage.handle? = some h := by
  cases stage with
  | looked => cases hp
  | reserved k => exact hp
  | opened k f => exact hp
  | failed k => cases hp

end Invariant

variable {st : State} {f : FileRef} {s : SessionRef}

section Tables

/-- What a step on the tables leaves to the handles, sessions and trees that exist. -/
structure Keeps (st st' : State) : Prop where
  nextSession : st.nextSession ≤ st'.nextSession
  nextOpen : st.nextOpen ≤ st'.nextOpen
  session : ∀ h, h < st.nextOpen → (st'.handle h).session = (st.handle h).session
  treeID : ∀ h, h < st.nextOpen → (st'.handle h).treeID = (st.handle h).treeID
  file : ∀ h, h < st.nextOpen → (st'.handle h).file = (st.handle h).file
  registered : ∀ h, h < st.nextOpen → (st'.Registered h ↔ st.Registered h)
  current : ∀ s, s < st.nextSession → (st'.Current s ↔ st.Current s)
  trees : ∀ s, s < st.nextSession → ∀ t, t ∈ (st.session s).trees → t ∈ (st'.session s).trees

theorem Keeps.refl (st : State) : Keeps st st :=
  ⟨Nat.le_refl _, Nat.le_refl _, fun _ _ => rfl, fun _ _ => rfl, fun _ _ => rfl,
    fun _ _ => Iff.rfl, fun _ _ => Iff.rfl, fun _ _ _ ht => ht⟩

variable {c : System} {st' : State}

theorem Flying.keep {fl} (hf : Flying c fl) (hk : Keeps c.tables st') :
    Flying (c.setTables st') fl where
  session := Nat.lt_of_lt_of_le hf.session hk.nextSession
  tree := hk.trees _ hf.session _ hf.tree
  handle h hh := by
    obtain ⟨hlt, hs, ht, hfile⟩ := hf.handle h hh
    refine ⟨Nat.lt_of_lt_of_le hlt hk.nextOpen, ?_, ?_, ?_⟩
    · exact (hk.session h hlt).trans hs
    · exact (hk.treeID h hlt).trans ht
    · exact (hk.file h hlt).trans hfile
  pending h hp hcur := by
    obtain ⟨hlt, -, -, -⟩ := hf.handle h (handle_of_pending hp)
    obtain ⟨hr, hc⟩ := hf.pending h hp ((hk.current _ hf.session).1 hcur)
    exact ⟨(hk.registered h hlt).2 hr, hc⟩

theorem Attached.keep (hi : Indexed st) (ha : Attached st h)
    (hk : Keeps st st') : Attached st' h := by
  obtain ⟨hr, hc, ht⟩ := ha
  have hlt := (hi.entry _ _ _ hr).1
  have hs := hi.owner h hlt
  refine ⟨(hk.registered h hlt).2 hr, ?_, ?_⟩
  · rw [hk.session h hlt]
    exact (hk.current _ hs).2 hc
  · rw [hk.session h hlt, hk.treeID h hlt]
    exact hk.trees _ hs _ ht

theorem Owned.keep (hi : Indexed c.tables) (ho : Owned c f)
    (hk : Keeps c.tables st') : Owned (c.setTables st') f := by
  rcases ho with ho | ⟨h, hf, hr, ho⟩
  · exact .inl ho
  have hlt := (hi.entry _ _ _ hr).1
  refine .inr ⟨h, (hk.file h hlt).trans hf, (hk.registered h hlt).2 hr, ?_⟩
  rcases ho with ha | hc
  · exact .inl (ha.keep hi hk)
  · exact .inr hc

theorem Invariant.keep (hv : Invariant c) (hk : Keeps c.tables st') (hi : Indexed st')
    (hn : Numbered st') : Invariant (c.setTables st') where
  indexed := hi
  numbered := hn
  flying n fl hfl := (hv.flying n fl hfl).keep hk
  apart := hv.apart
  closing h hh := Nat.lt_of_lt_of_le (hv.closing h hh) hk.nextOpen
  owned f hf := (hv.owned f hf).keep hv.indexed hk

theorem openSession_current {id conn} (hid : st.sessions.lookup id = none)
    (hs : s < st.nextSession) : (openSession st id conn).Current s ↔ st.Current s := by
  have hsess : (openSession st id conn).sessions = st.sessions.insert id st.nextSession := rfl
  rw [State.Current, State.Current, openSession_session_old st id conn hs, hsess]
  by_cases he : (st.session s).id = id
  · rw [he, AList.lookup_insert, hid]
    constructor
    · intro h
      exact absurd (Option.some.inj h) (Nat.ne_of_gt hs)
    · intro h
      cases h
  · rw [AList.lookup_insert_ne he]

theorem keeps_newSession (hi : Indexed st) (conn : ConnRef) (draws : List UInt64) :
    Keeps st (newSession st conn draws).2 := by
  rcases newSession_cases st conn draws with h | ⟨id, -, hid, h⟩
  · rw [h]
    exact Keeps.refl st
  rw [h]
  refine ⟨Nat.le_succ _, Nat.le_refl _, fun _ _ => rfl, fun _ _ => rfl, fun _ _ => rfl,
    fun k hk => ?_, fun s hs => openSession_current hid hs, fun s hs t ht => ?_⟩
  · rw [State.Registered, State.Registered, openSession_handle,
      openSession_session_old st id conn (hi.owner k hk)]
  · rw [openSession_session_old st id conn hs]
    exact ht

theorem setSession_current {r} (hid : r.id = (st.session s).id) (t : SessionRef) :
    (st.setSession s r).Current t ↔ st.Current t := by
  rw [State.Current, State.Current,
    show ((st.setSession s r).session t).id = (st.session t).id from
      update_field (f := Session.id) hid t]
  rfl

theorem treeConnect_cases (st : State) (s : SessionRef) :
    treeConnect st s = (none, st) ∨ ∃ t, treeConnect st s = (some t, st.setSession s
      { st.session s with nextTree := t, trees := (st.session s).trees.insert t }) := by
  rw [treeConnect]
  split
  · exact .inl rfl
  · exact .inr ⟨_, rfl⟩

theorem keeps_treeConnect (st : State) (s : SessionRef) : Keeps st (treeConnect st s).2 := by
  rcases treeConnect_cases st s with h | ⟨t, h⟩
  · rw [h]
    exact Keeps.refl st
  have hsame := treeConnect_same st s
  rw [h] at hsame ⊢
  refine ⟨Nat.le_refl _, Nat.le_refl _, fun _ _ => rfl, fun _ _ => rfl, fun _ _ => rfl,
    fun h _ => hsame.registered h, fun u _ => ?_, fun u _ id hid => ?_⟩
  · apply setSession_current
    rfl
  by_cases hu : u = s
  · subst hu
    simp [State.setSession, hid]
  · simpa [State.setSession, update_of_ne hu] using hid

theorem keeps_register {h}
    (hfresh : ∀ k, k < st.nextOpen → (st.handle k).session = s → (st.handle k).id ≠ nextID st s) :
    Keeps st (register st s h) := by
  refine ⟨Nat.le_refl _, Nat.le_succ _, fun k hk => ?_, fun k hk => ?_, fun k hk => ?_,
    fun k hk => register_registered hfresh hk, fun t _ => register_current t, fun t _ id hid => ?_⟩
  · rw [register_handle_old hk]
  · rw [register_handle_old hk]
  · rw [register_handle_old hk]
  · by_cases ht : t = s
    · subst ht
      simpa [register] using hid
    · rw [register_session_other ht]
      exact hid

theorem keeps_lock (st : State) (h : HandleRef) (es : List LockElement) :
    Keeps st (lock st h es).2 := by
  rw [lock]
  split <;> exact { Keeps.refl st with }

theorem keeps_setDisposition (st : State) (h : HandleRef) (pending : Bool) :
    Keeps st (setDisposition st h pending) :=
  ⟨Nat.le_refl _, Nat.le_refl _, fun k _ => update_field (f := OpenHandle.session) (by rfl) k,
    fun k _ => update_field (f := OpenHandle.treeID) (by rfl) k,
    fun k _ => update_field (f := OpenHandle.file) (by rfl) k,
    fun k _ => (setDisposition_same st h pending).registered k, fun _ _ => Iff.rfl,
    fun _ _ _ ht => ht⟩

theorem keeps_rename (st : State) (oldName newName : Path) :
    Keeps st (renameOpens st oldName newName) := by
  refine ⟨Nat.le_refl _, Nat.le_refl _, fun k _ => renameOpens_session st oldName newName k,
    fun k _ => ?_, fun k _ => ?_, fun k _ => renameOpens_registered st oldName newName k,
    fun _ _ => Iff.rfl, fun _ _ _ ht => ht⟩
  · rw [renameOpens_handle]
    split <;> rfl
  · rw [renameOpens_handle]
    split <;> rfl

end Tables

section Closing

variable {c : System} {st' : State} {k : HandleRef}

/-- Unregistering `k` harms no other handle, and no CREATE that may still be committed. -/
structure Releases (st st' : State) (k : HandleRef) : Prop extends Unregisters st st' k where
  trees : ∀ s, (st'.session s).trees = (st.session s).trees

theorem abortHandle_releases (st : State) (k : HandleRef) : Releases st (abortHandle st k) k where
  toUnregisters := abortHandle_unregisters st k
  trees := update_field (f := Session.trees) rfl

theorem closeHandle_releases (st : State) (k : HandleRef) : Releases st (closeHandle st k) k where
  toUnregisters := closeHandle_unregisters st k
  trees := update_field (f := Session.trees) rfl

theorem Releases.attached (hr : Releases st st' k) (hi : Indexed st) (hn : Numbered st)
    (hk : k < st.nextOpen) (hne : h ≠ k) (ha : Attached st h) : Attached st' h := by
  obtain ⟨hreg, hc, ht⟩ := ha
  refine ⟨(hr.registered hi hn hk h).2 ⟨hreg, hne⟩, ?_, ?_⟩
  · rw [hr.handle, hr.current]
    exact hc
  · rw [hr.handle, hr.trees]
    exact ht

theorem Flying.release {fl} (hf : Flying c fl) (hr : Releases c.tables st' k)
    (hi : Indexed c.tables) (hn : Numbered c.tables) (hk : k < c.tables.nextOpen)
    (hne : ∀ h, fl.stage.pending? = some h → c.tables.Current fl.session → h ≠ k) :
    Flying (c.setTables st') fl where
  session := by
    have hs := hf.session
    rwa [← hr.nextSession] at hs
  tree := by
    have ht := hf.tree
    rwa [← hr.trees] at ht
  handle h hh := by
    have h' := hf.handle h hh
    rwa [← hr.nextOpen, ← hr.handle] at h'
  pending h hp hcur := by
    have hcur' := (hr.current _).1 hcur
    obtain ⟨hreg, hc⟩ := hf.pending h hp hcur'
    exact ⟨(hr.registered hi hn hk h).2 ⟨hreg, hne h hp hcur'⟩, hc⟩

theorem Flying.mono {fl creates closing isOpen nextFile} (hf : Flying c fl)
    (hc : ∀ h, h ∈ closing → h ∈ c.closing) :
    Flying ⟨c.tables, creates, closing, isOpen, nextFile⟩ fl where
  session := hf.session
  tree := hf.tree
  handle := hf.handle
  pending h hp hcur := by
    obtain ⟨hr, hn⟩ := hf.pending h hp hcur
    exact ⟨hr, fun hm => hn (hc h hm)⟩

end Closing

variable {n : ℕ} {treeID : UInt32}

section Steps

variable {c : System}

theorem start_invariant : Invariant start where
  indexed := indexed_new
  numbered := numbered_new
  flying n fl h := by cases h
  apart n m fl fm h hn := by cases hn
  closing h hh := by cases hh
  owned f hf := by cases hf

theorem setFlight_self (c : System) (n : ℕ) (fl : Option Flight) :
    (c.setFlight n fl).creates n = fl := by
  simp [System.setFlight]

theorem setFlight_ne (c : System) {m} (fl : Option Flight) (h : m ≠ n) :
    (c.setFlight n fl).creates m = c.creates m := by
  simp [System.setFlight, h]

theorem of_setFlight_none {m fl} (h : (c.setFlight n none).creates m = some fl) :
    m ≠ n ∧ c.creates m = some fl := by
  have hmn : m ≠ n := by
    rintro rfl
    rw [setFlight_self] at h
    cases h
  rw [setFlight_ne c none hmn] at h
  exact ⟨hmn, h⟩

theorem Invariant.setFlight (hv : Invariant c) {fl'}
    (hfly : ∀ fl, fl' = some fl → Flying c fl)
    (happ : ∀ fl h, fl' = some fl → fl.stage.handle? = some h →
      ∀ m fm, m ≠ n → c.creates m = some fm → fm.stage.handle? ≠ some h)
    (hown : ∀ fl h f, c.creates n = some fl → fl.stage = .opened h f → c.isOpen f = true →
      ∃ fl₁, fl' = some fl₁ ∧ fl₁.stage = .opened h f) : Invariant (c.setFlight n fl') where
  indexed := hv.indexed
  numbered := hv.numbered
  flying m fl hm := by
    by_cases he : m = n
    · subst he
      rw [setFlight_self] at hm
      exact (hfly fl hm).mono fun _ => id
    · rw [setFlight_ne c fl' he] at hm
      exact (hv.flying m fl hm).mono fun _ => id
  apart i j fl fm h hi hj hfl hfm := by
    by_cases hin : i = n <;> by_cases hjn : j = n
    · exact hin.trans hjn.symm
    · subst hin
      rw [setFlight_self] at hi
      rw [setFlight_ne c fl' hjn] at hj
      exact absurd hfm (happ fl h hi hfl j fm hjn hj)
    · subst hjn
      rw [setFlight_self] at hj
      rw [setFlight_ne c fl' hin] at hi
      exact absurd hfl (happ fm h hj hfm i fl hin hi)
    · rw [setFlight_ne c fl' hin] at hi
      rw [setFlight_ne c fl' hjn] at hj
      exact hv.apart i j fl fm h hi hj hfl hfm
  closing := hv.closing
  owned f hf := by
    rcases hv.owned f hf with ⟨m, fl, h, hm, hst⟩ | ho
    · by_cases he : m = n
      · subst he
        obtain ⟨fl₁, h₁, hst₁⟩ := hown fl h f hm hst hf
        refine .inl ⟨m, fl₁, h, ?_, hst₁⟩
        rw [setFlight_self, h₁]
      · refine .inl ⟨m, fl, h, ?_, hst⟩
        rw [setFlight_ne c fl' he, hm]
    · exact .inr ho

theorem Invariant.advance (hv : Invariant c) {stage stage'}
    (hn : c.creates n = some ⟨s, treeID, stage⟩) (hh : stage'.handle? = stage.handle?)
    (hp : ∀ h, stage'.pending? = some h → stage.pending? = some h)
    (hown : ∀ h f, stage = .opened h f → c.isOpen f = true → stage' = .opened h f) :
    Invariant (c.setFlight n (some ⟨s, treeID, stage'⟩)) := by
  have hf := hv.flying n _ hn
  apply hv.setFlight
  · intro fl hfl
    cases hfl
    refine ⟨hf.session, hf.tree, fun h hh' => ?_, fun h hp' => ?_⟩
    · exact hf.handle h (hh.symm.trans hh')
    · exact hf.pending h (hp h hp')
  · intro fl h hfl' hfl m fm hmn hm hfm
    cases hfl'
    exact hmn (hv.apart m n fm _ h hm hn hfm (hh.symm.trans hfl))
  · rintro fl h f hfl hst hopen
    rw [hn] at hfl
    cases hfl
    exact ⟨_, rfl, hown h f hst hopen⟩

theorem Invariant.finish (hv : Invariant c) {stage} (hn : c.creates n = some ⟨s, treeID, stage⟩)
    (hst : ∀ h f, stage ≠ .opened h f) : Invariant (c.setFlight n none) := by
  apply hv.setFlight
  · intro fl h
    cases h
  · intro fl h hfl
    cases hfl
  · intro fl h f hfl hopened
    rw [hn] at hfl
    cases hfl
    exact absurd hopened (hst h f)

theorem Invariant.closeFile (hv : Invariant c) (f : FileRef) : Invariant (c.setOpen f false) where
  indexed := hv.indexed
  numbered := hv.numbered
  flying n fl hn := (hv.flying n fl hn).mono fun _ => id
  apart := hv.apart
  closing := hv.closing
  owned g hg := by
    by_cases he : g = f
    · subst he
      simp [System.setOpen] at hg
    · simp only [System.setOpen, update_of_ne he] at hg
      exact hv.owned g hg

theorem Invariant.fail (hv : Invariant c) (hn : c.creates n = some ⟨s, treeID, .opened h f⟩) :
    Invariant ((c.setOpen f false).setFlight n (some ⟨s, treeID, .failed h⟩)) := by
  refine (hv.closeFile f).advance hn rfl (fun _ hp => by cases hp) ?_
  intro k g hst hopen
  cases hst
  simp [System.setOpen] at hopen

theorem Invariant.release {st' k closing}
    (hv : Invariant c) (hr : Releases c.tables st' k) (hk : k < c.tables.nextOpen)
    (hne : ∀ n fl h, c.creates n = some fl → fl.stage.pending? = some h →
      c.tables.Current fl.session → h ≠ k)
    (hfile : ∀ f, (c.tables.handle k).file = some f → c.isOpen f = false)
    (hsub : ∀ h, h ∈ closing → h ∈ c.closing)
    (hsup : ∀ h, h ≠ k → h ∈ c.closing → h ∈ closing) :
    Invariant { c.setTables st' with closing := closing } where
  indexed := hv.indexed.unregister hv.numbered hr.toUnregisters hk
  numbered := hv.numbered.unregister hr.toUnregisters
  flying n fl hn := by
    have hf := (hv.flying n fl hn).release hr hv.indexed hv.numbered hk fun h => hne n fl h hn
    exact hf.mono hsub
  apart := hv.apart
  closing h hh := by
    have hlt := hv.closing h (hsub h hh)
    rwa [← hr.nextOpen] at hlt
  owned f hf := by
    rcases hv.owned f hf with ho | ⟨h, hhf, hreg, ho⟩
    · exact .inl ho
    have hhk : h ≠ k := by
      rintro rfl
      exact absurd hf (Bool.eq_false_iff.1 (hfile f hhf))
    refine .inr ⟨h, ?_, (hr.registered hv.indexed hv.numbered hk h).2 ⟨hreg, hhk⟩, ?_⟩
    · exact (congrFun hr.handle h ▸ hhf : (st'.handle h).file = some f)
    · rcases ho with ha | hc
      · exact .inl (hr.attached hv.indexed hv.numbered hk hhk ha)
      · exact .inr (hsup h hhk hc)

/-- A tree or a session goes away, and the handles under it are left to be closed. -/
theorem Invariant.detach {st' hs} (hv : Invariant c) (hsame : SameRegistry c.tables st')
    (hh : st'.handle = c.tables.handle) (hlt : ∀ h, h ∈ hs → c.tables.Registered h)
    (hatt : ∀ h, Attached c.tables h → Attached st' h ∨ h ∈ hs)
    (hfly : ∀ n fl, c.creates n = some fl → fl.treeID ∈ (st'.session fl.session).trees ∧
      ∀ h, fl.stage.pending? = some h → st'.Current fl.session →
        c.tables.Current fl.session ∧ h ∉ hs) :
    Invariant { c.setTables st' with closing := hs ++ c.closing } where
  indexed := hv.indexed.of_same hsame
  numbered := hv.numbered.of_same hsame
  flying n fl hn := by
    have hf := hv.flying n fl hn
    obtain ⟨ht, hp⟩ := hfly n fl hn
    refine ⟨lt_of_lt_of_eq hf.session hsame.nextSession.symm, ht, fun h hs => ?_,
      fun h hpend hcur => ?_⟩
    · have h' := hf.handle h hs
      rwa [← hsame.nextOpen, ← hh] at h'
    obtain ⟨hcur, hno⟩ := hp h hpend hcur
    obtain ⟨hr, hc⟩ := hf.pending h hpend hcur
    refine ⟨(hsame.registered h).2 hr, fun hm => ?_⟩
    rcases List.mem_append.1 hm with hm | hm
    · exact hno hm
    · exact hc hm
  apart := hv.apart
  closing h hm := by
    refine lt_of_lt_of_eq ?_ hsame.nextOpen.symm
    rcases List.mem_append.1 hm with hm | hm
    · exact (hv.indexed.entry _ _ _ (hlt h hm)).1
    · exact hv.closing h hm
  owned f hf := by
    rcases hv.owned f hf with ho | ⟨h, hhf, hr, ho⟩
    · exact .inl ho
    refine .inr ⟨h, ?_, (hsame.registered h).2 hr, ?_⟩
    · exact (congrFun hh h ▸ hhf : (st'.handle h).file = some f)
    · rcases ho with ha | hc
      · exact (hatt h ha).imp id (List.mem_append_left _)
      · exact .inr (List.mem_append_right _ hc)

theorem mem_listed (hi : Indexed st) :
    h ∈ listed st s ↔ st.Registered h ∧ (st.handle h).session = s := by
  constructor
  · intro hm
    obtain ⟨⟨id, k⟩, hk, rfl⟩ := List.mem_map.1 hm
    have hl : (st.session s).handles.lookup id = some k := AList.mem_lookup_iff.2 hk
    obtain ⟨-, hs, hid⟩ := hi.entry s id k hl
    refine ⟨?_, hs⟩
    rw [State.Registered, hs, hid]
    exact hl
  · rintro ⟨hr, hs⟩
    rw [State.Registered, hs] at hr
    exact List.mem_map.2 ⟨⟨_, h⟩, AList.mem_lookup_iff.1 hr, rfl⟩

theorem mem_cutTree {t id} (hid : id ∈ (st.session t).trees) (hne : ¬ (t = s ∧ id = treeID)) :
    id ∈ ((cutTree st s treeID).session t).trees := by
  by_cases ht : t = s
  · subst ht
    simp only [cutTree, State.setSession, update_self]
    exact (List.mem_erase_of_ne fun he => hne ⟨rfl, he⟩).2 hid
  · simpa [cutTree, State.setSession, update_of_ne ht] using hid

theorem cutTree_current (st : State) (s : SessionRef) (treeID : UInt32) (t : SessionRef) :
    (cutTree st s treeID).Current t ↔ st.Current t := by
  apply setSession_current
  rfl

theorem Invariant.cutTree (hv : Invariant c)
    (hcalm : ∀ n fl, c.creates n = some fl → ¬ (fl.session = s ∧ fl.treeID = treeID)) :
    Invariant { c.setTables (cutTree c.tables s treeID) with
      closing := (listed c.tables s).filter (fun h => (c.tables.handle h).treeID = treeID) ++
        c.closing } := by
  have hsame : SameRegistry c.tables (SmbState.cutTree c.tables s treeID) :=
    same_setSession rfl rfl rfl
  have hin : ∀ k, k ∈ (listed c.tables s).filter (fun h => (c.tables.handle h).treeID = treeID) ↔
      (c.tables.Registered k ∧ (c.tables.handle k).session = s) ∧
        (c.tables.handle k).treeID = treeID := by
    intro k
    rw [List.mem_filter, decide_eq_true_eq, mem_listed hv.indexed]
  refine hv.detach hsame rfl (fun k hk => ((hin k).1 hk).1.1) ?_ fun n fl hn => ?_
  · rintro k ⟨hr, hc, ht⟩
    by_cases hk : (c.tables.handle k).session = s ∧ (c.tables.handle k).treeID = treeID
    · exact .inr ((hin k).2 ⟨⟨hr, hk.1⟩, hk.2⟩)
    · refine .inl ⟨(hsame.registered k).2 hr, ?_, mem_cutTree ht hk⟩
      exact (cutTree_current _ _ _ _).2 hc
  have hf := hv.flying n fl hn
  refine ⟨mem_cutTree hf.tree (hcalm n fl hn), fun k hp hcur => ⟨?_, fun hk => ?_⟩⟩
  · exact (cutTree_current _ _ _ _).1 hcur
  · obtain ⟨⟨-, hs⟩, ht⟩ := (hin k).1 hk
    obtain ⟨-, hs', ht', -⟩ := hf.handle k (handle_of_pending hp)
    exact hcalm n fl hn ⟨hs'.symm.trans hs, ht'.symm.trans ht⟩

theorem dropSession_current {t} (hs : st.Current s) :
    (dropSession st s).Current t ↔ st.Current t ∧ t ≠ s := by
  have hsess : (dropSession st s).sessions = st.sessions.erase (st.session s).id := rfl
  rw [State.Current, hsess]
  change (st.sessions.erase (st.session s).id).lookup (st.session t).id = some t ↔ _
  by_cases hid : (st.session t).id = (st.session s).id
  · rw [hid, AList.lookup_erase]
    constructor
    · intro h
      cases h
    · rintro ⟨ht, hne⟩
      rw [State.Current, hid] at ht
      exact absurd (Option.some.inj (ht.symm.trans hs)) hne
  rw [AList.lookup_erase_ne hid]
  constructor
  · intro ht
    refine ⟨ht, ?_⟩
    rintro rfl
    exact hid rfl
  · exact And.left

theorem Invariant.dropSession (hv : Invariant c) (hs : c.tables.Current s) :
    Invariant { c.setTables (dropSession c.tables s) with
      closing := listed c.tables s ++ c.closing } := by
  have hsame : SameRegistry c.tables (SmbState.dropSession c.tables s) :=
    { SameRegistry.refl c.tables with }
  refine hv.detach hsame rfl (fun k hk => ((mem_listed hv.indexed).1 hk).1) ?_ fun n fl hn => ?_
  · rintro k ⟨hr, hc, ht⟩
    by_cases hk : (c.tables.handle k).session = s
    · exact .inr ((mem_listed hv.indexed).2 ⟨hr, hk⟩)
    · exact .inl ⟨hr, (dropSession_current hs).2 ⟨hc, hk⟩, ht⟩
  · have hf := hv.flying n fl hn
    refine ⟨hf.tree, fun k hp hcur => ?_⟩
    obtain ⟨hcur, hne⟩ := (dropSession_current hs).1 hcur
    obtain ⟨-, hks, -, -⟩ := hf.handle k (handle_of_pending hp)
    exact ⟨hcur, fun hm => hne (hks.symm.trans ((mem_listed hv.indexed).1 hm).2)⟩

/-- The tables after a reserved handle has got its file. -/
def attach (st : State) (h : HandleRef) (f : FileRef) (info : FileInfo) : State :=
  st.setHandle h { st.handle h with file := some f, info := info }

theorem attach_same (st : State) (h : HandleRef) (f : FileRef) (info : FileInfo) :
    SameRegistry st (attach st h f info) :=
  same_setHandle rfl rfl rfl rfl rfl

theorem attach_self (st : State) (h : HandleRef) (f : FileRef) (info : FileInfo) :
    (attach st h f info).handle h = { st.handle h with file := some f, info := info } :=
  update_self _ _ _

theorem attach_ne (st : State) (f : FileRef) (info : FileInfo) {k} (hk : k ≠ h) :
    (attach st h f info).handle k = st.handle k :=
  update_of_ne hk _ _

theorem commitHandle_current (hc : st.Current (st.handle h).session)
    (f : FileRef) (info : FileInfo) : commitHandle st h f info = (true, attach st h f info) := by
  rw [commitHandle, if_pos hc]
  rfl

/-- A reserved handle takes its file: it is registered under a session and a tree still there. -/
theorem Invariant.commit (hv : Invariant c) (hn : c.creates n = some ⟨s, treeID, .opened h f⟩)
    (hcur : c.tables.Current s) (info : FileInfo) :
    Attached (attach c.tables h f info) h ∧
    Invariant ((c.setTables (attach c.tables h f info)).setFlight n none) := by
  have hf := hv.flying n _ hn
  obtain ⟨hlt, hks, hkt, hkf⟩ := hf.handle h rfl
  obtain ⟨hr, hcl⟩ := hf.pending h rfl hcur
  have hsame := attach_same c.tables h f info
  have hself := attach_self c.tables h f info
  have hatt : Attached (attach c.tables h f info) h := by
    refine ⟨(hsame.registered h).2 hr, ?_, ?_⟩
    · rw [hself, hks]
      exact hcur
    · rw [hself]
      change (c.tables.handle h).treeID ∈ (c.tables.session (c.tables.handle h).session).trees
      rw [hks, hkt]
      exact hf.tree
  refine ⟨hatt, hv.indexed.of_same hsame, hv.numbered.of_same hsame, fun m fl hm => ?_,
    fun i j fl fm k hi hj => ?_, hv.closing, fun g hg => ?_⟩
  · obtain ⟨hmn, hold⟩ := of_setFlight_none (c := c) hm
    have hfm := hv.flying m fl hold
    refine ⟨hfm.session, hfm.tree, fun k hk => ?_, fun k hp hc => ?_⟩
    · have hkh : k ≠ h := by
        rintro rfl
        exact hmn (hv.apart m n fl _ k hold hn hk rfl)
      have hk' := hfm.handle k hk
      rwa [← attach_ne c.tables f info hkh] at hk'
    · obtain ⟨hrk, hck⟩ := hfm.pending k hp hc
      exact ⟨(hsame.registered k).2 hrk, hck⟩
  · exact hv.apart i j fl fm k (of_setFlight_none (c := c) hi).2 (of_setFlight_none (c := c) hj).2
  by_cases hgf : g = f
  · subst hgf
    refine .inr ⟨h, ?_, (hsame.registered h).2 hr, .inl hatt⟩
    exact congrArg OpenHandle.file hself
  rcases hv.owned g hg with ⟨m, fl, k, hm, hst⟩ | ⟨k, hkg, hrk, ho⟩
  · have hmn : m ≠ n := by
      rintro rfl
      rw [hn] at hm
      cases hm
      cases hst
      exact hgf rfl
    exact .inl ⟨m, fl, k, (setFlight_ne _ none hmn).trans hm, hst⟩
  have hkh : k ≠ h := by
    rintro rfl
    rw [hkf] at hkg
    cases hkg
  have hother := attach_ne c.tables f info hkh
  refine .inr ⟨k, (congrArg OpenHandle.file hother).trans hkg, (hsame.registered k).2 hrk, ?_⟩
  refine ho.imp (fun ⟨_, hc, ht⟩ => ⟨(hsame.registered k).2 hrk, ?_, ?_⟩) id
  · change c.tables.Current ((attach c.tables h f info).handle k).session
    rw [hother]
    exact hc
  · change ((attach c.tables h f info).handle k).treeID ∈
      (c.tables.session ((attach c.tables h f info).handle k).session).trees
    rw [hother]
    exact ht

theorem Invariant.reserve (hv : Invariant c) (hn : c.creates n = some ⟨s, treeID, .looked⟩)
    (h64 : (c.tables.session s).nextHandle.toNat + 1 < 2 ^ 64) (h : OpenHandle)
    (hh : h.treeID = treeID) :
    Invariant ((c.setTables (register c.tables s h)).setFlight n
      (some ⟨s, treeID, .reserved c.tables.nextOpen⟩)) := by
  have hf := hv.flying n _ hn
  have hfresh : ∀ k, k < c.tables.nextOpen → (c.tables.handle k).session = s →
      (c.tables.handle k).id ≠ nextID c.tables s := fun k hk => hv.numbered.fresh h64 hk
  have hk := keeps_register (h := h) hfresh
  have hreg := hv.keep hk (hv.indexed.register hf.session hfresh) (hv.numbered.register h64)
  have hf' := hf.keep hk
  apply hreg.setFlight
  · intro fl hfl
    cases hfl
    refine ⟨hf'.session, hf'.tree, fun k hkk => ?_, fun k hp _ => ?_⟩
    · cases hkk
      change _ < c.tables.nextOpen + 1 ∧ ((register c.tables s h).handle _).session = s ∧
        ((register c.tables s h).handle _).treeID = treeID ∧
        ((register c.tables s h).handle _).file = none
      rw [register_handle_new]
      exact ⟨Nat.lt_succ_self _, rfl, hh, rfl⟩
    · cases hp
      refine ⟨register_registered_new c.tables s h, ?_⟩
      intro hm
      exact absurd (hv.closing _ hm) (Nat.lt_irrefl _)
  · intro fl k hfl hkk m fm hmn hm hfm
    cases hfl
    cases hkk
    exact absurd ((hv.flying m fm hm).handle _ hfm).1 (Nat.lt_irrefl _)
  · intro fl k f hfl hst _
    rw [show (c.setTables (register c.tables s h)).creates n = c.creates n from rfl, hn] at hfl
    cases hfl
    cases hst

theorem Invariant.openFile (hv : Invariant c) (hn : c.creates n = some ⟨s, treeID, .reserved h⟩) :
    Invariant { (c.setOpen c.nextFile true).setFlight n
      (some ⟨s, treeID, .opened h c.nextFile⟩) with nextFile := c.nextFile + 1 } := by
  have hadv : Invariant (c.setFlight n (some ⟨s, treeID, .opened h c.nextFile⟩)) := by
    refine hv.advance hn rfl (fun _ hp => hp) ?_
    intro k f hst
    cases hst
  refine { hadv with flying := fun m fl hm => ?_, owned := fun g hg => ?_ }
  · exact (hadv.flying m fl hm).mono fun _ => id
  · by_cases hgf : g = c.nextFile
    · subst hgf
      exact .inl ⟨n, _, h, setFlight_self _ _ _, rfl⟩
    · exact hadv.owned g (by simpa [System.setOpen, System.setFlight, hgf] using hg)

theorem Invariant.finishClose (hv : Invariant c) {k} (hk : k ∈ c.closing) :
    Invariant { (c.setTables (closeHandle c.tables k)).closeFile (c.tables.handle k).file with
      closing := c.closing.erase k } := by
  have hlt := hv.closing k hk
  have hne : ∀ n fl h, c.creates n = some fl → fl.stage.pending? = some h →
      c.tables.Current fl.session → h ≠ k := by
    rintro n fl h hn hp hcur rfl
    exact ((hv.flying n fl hn).pending h hp hcur).2 hk
  have hsub : ∀ h, h ∈ c.closing.erase k → h ∈ c.closing := fun h => List.mem_of_mem_erase
  have hsup : ∀ h, h ≠ k → h ∈ c.closing → h ∈ c.closing.erase k :=
    fun h hhk => (List.mem_erase_of_ne hhk).2
  cases hf : (c.tables.handle k).file with
  | none =>
    refine hv.release (closeHandle_releases c.tables k) hlt hne ?_ hsub hsup
    intro f hf'
    rw [hf] at hf'
    cases hf'
  | some f =>
    refine (hv.closeFile f).release (closeHandle_releases c.tables k) hlt hne ?_ hsub hsup
    intro g hg
    have hgf : f = g := Option.some.inj (hf.symm.trans hg)
    subst hgf
    simp [System.setOpen]

theorem next_invariant (c : System) (e : Event) (c' : System) (hv : Invariant c)
    (hcalm : Calm c e) (h : next c e = some c') : Invariant c' := by
  cases e with
  | newSession conn draws =>
    cases h
    have hk := keeps_newSession hv.indexed conn draws
    rcases newSession_cases c.tables conn draws with hs | ⟨id, -, -, hs⟩
    · rw [hs] at hk ⊢
      exact hv.keep hk hv.indexed hv.numbered
    · rw [hs] at hk ⊢
      exact hv.keep hk (hv.indexed.openSession id conn) (hv.numbered.openSession hv.indexed id conn)
  | treeConnect s =>
    obtain ⟨-, rfl⟩ := Option.ite_some_none_eq_some.1 h
    have hsame := treeConnect_same c.tables s
    exact hv.keep (keeps_treeConnect _ s) (hv.indexed.of_same hsame) (hv.numbered.of_same hsame)
  | createLookup n s treeID =>
    simp only [next, Option.ite_none_right_eq_some] at h
    obtain ⟨⟨hn, hs, ht⟩, h⟩ := h
    cases h
    apply hv.setFlight
    · intro fl hfl
      cases hfl
      refine ⟨hs, ht, fun k hk => ?_, fun k hk => ?_⟩
      · cases hk
      · cases hk
    · intro fl k hfl hk
      cases hfl
      cases hk
    · intro fl k f hfl
      rw [hn] at hfl
      cases hfl
  | createReserve n k =>
    simp only [next] at h
    split at h
    · rename_i s treeID hn
      rcases addHandle_cases c.tables s { k with treeID := treeID } with ⟨_, ha⟩ | ⟨ha, -, -⟩
      · rw [ha] at h
        cases h
        exact hv.finish hn fun _ _ h => by cases h
      · rw [ha] at h
        cases h
        exact hv.reserve hn (hcalm _ hn) _ rfl
    · cases h
  | createOpen n =>
    simp only [next] at h
    split at h
    · rename_i hn
      cases h
      exact hv.openFile hn
    · cases h
  | createFail n =>
    simp only [next] at h
    split at h
    · rename_i hn
      cases h
      refine hv.advance hn rfl (fun _ hp => by cases hp) ?_
      intro k f hst
      cases hst
    · rename_i s treeID k f hn
      cases h
      exact hv.fail hn
    · cases h
  | createCommit n info =>
    simp only [next] at h
    split at h
    · rename_i s treeID k f hn
      have hks := ((hv.flying n _ hn).handle k rfl).2.1
      split at h
      · rename_i hc
        cases h
        by_cases hcur : c.tables.Current (c.tables.handle k).session
        · rw [commitHandle_current hcur]
          rw [hks] at hcur
          exact (hv.commit hn hcur info).2
        · rw [commits, commitHandle, if_neg hcur] at hc
          cases hc
      · cases h
        exact hv.fail hn
    · cases h
  | createAbort n =>
    simp only [next] at h
    split at h
    · rename_i s treeID k hn
      cases h
      obtain ⟨hlt, -, -, hkf⟩ := (hv.flying n _ hn).handle k rfl
      refine (hv.finish hn fun _ _ h => by cases h).release (abortHandle_releases c.tables k) hlt
        ?_ ?_ (fun _ => id) fun _ _ => id
      · intro m fl j hm hp _ hjk
        subst hjk
        obtain ⟨hmn, hm⟩ := of_setFlight_none hm
        exact hmn (hv.apart m n fl _ j hm hn (handle_of_pending hp) rfl)
      · intro f hf
        rw [show (c.setFlight n none).tables = c.tables from rfl, hkf] at hf
        cases hf
    · cases h
  | closeLookup s treeID id =>
    simp only [next] at h
    split at h
    · cases h
      exact hv
    rename_i k hk
    cases h
    rw [handle] at hk
    split at hk
    · cases hk
    rename_i j hl
    split at hk
    · cases hk
    rename_i hne
    cases hk
    rw [not_or] at hne
    obtain ⟨-, hs, hid⟩ := hv.indexed.entry _ _ _ hl
    refine hv.detach (.refl _) rfl (fun i (hi : i ∈ [k]) => ?_) (fun _ => .inl) fun n fl hn => ?_
    · rw [List.mem_singleton.1 hi, State.Registered, hs, hid]
      exact hl
    · refine ⟨(hv.flying n fl hn).tree, fun i hp hcur => ⟨hcur, fun hi => ?_⟩⟩
      obtain rfl := List.mem_singleton.1 hi
      exact hne.2 ((hv.flying n fl hn).handle i (handle_of_pending hp)).2.2.2
  | treeDisconnect s treeID =>
    obtain ⟨-, rfl⟩ := Option.ite_some_none_eq_some.1 h
    rw [treeDisconnect]
    split
    · exact hv.cutTree hcalm
    · exact { hv with flying := fun n fl hn => (hv.flying n fl hn).mono fun _ => id }
  | closeSession s =>
    obtain ⟨-, rfl⟩ := Option.ite_some_none_eq_some.1 h
    rw [closeSession]
    split
    · rename_i hcur
      exact hv.dropSession hcur
    · exact { hv with flying := fun n fl hn => (hv.flying n fl hn).mono fun _ => id }
  | finishClose k =>
    obtain ⟨hk, rfl⟩ := Option.ite_some_none_eq_some.1 h
    exact hv.finishClose hk
  | lock k es =>
    cases h
    have hsame := lock_same c.tables k es
    exact hv.keep (keeps_lock _ k es) (hv.indexed.of_same hsame) (hv.numbered.of_same hsame)
  | setDisposition k pending =>
    cases h
    have hsame := setDisposition_same c.tables k pending
    exact hv.keep (keeps_setDisposition _ k pending) (hv.indexed.of_same hsame)
      (hv.numbered.of_same hsame)
  | rename oldName newName =>
    cases h
    exact hv.keep (keeps_rename _ oldName newName) (hv.indexed.renameOpens oldName newName)
      (hv.numbered.renameOpens oldName newName)

end Steps

section Runs

variable {c : System}

theorem commits_iff {info} :
    commits c h f info = true ↔ c.tables.Current (c.tables.handle h).session := by
  rw [commits, commitHandle]
  split
  · rename_i hc
    simp [hc]
  · rename_i hc
    simp [hc]

/-- The requests that end a handle, its tree or its session. -/
def endings (c : System) (h : HandleRef) : List Event :=
  let r := c.tables.handle h
  [.closeLookup r.session r.treeID r.id, .treeDisconnect r.session r.treeID,
    .closeSession r.session]

/-- Each of them takes the handle in hand and then closes its file. -/
def Closable (c : System) (h : HandleRef) (f : FileRef) : Prop :=
  ∀ e ∈ endings c h, ∃ c₁ c₂, next c e = some c₁ ∧ next c₁ (.finishClose h) = some c₂ ∧
    c₂.isOpen f = false

theorem finishClose_closes (hh : h ∈ c.closing) (hf : (c.tables.handle h).file = some f) :
    ∃ c', next c (.finishClose h) = some c' ∧ c'.isOpen f = false := by
  refine ⟨_, if_pos hh, ?_⟩
  simp [hf, System.closeFile, System.setOpen]

theorem Attached.closable (ha : Attached c.tables h)
    (hi : Indexed c.tables) (hf : (c.tables.handle h).file = some f) : Closable c h f := by
  obtain ⟨hr, hc, ht⟩ := ha
  have hlt := hi.owner h (hi.entry _ _ _ hr).1
  have hlisted : h ∈ listed c.tables (c.tables.handle h).session := (mem_listed hi).2 ⟨hr, rfl⟩
  have through : ∀ {e c₁}, next c e = some c₁ → h ∈ c₁.closing →
      (c₁.tables.handle h).file = some f → ∃ c₁ c₂, next c e = some c₁ ∧
        next c₁ (.finishClose h) = some c₂ ∧ c₂.isOpen f = false := by
    intro e c₁ he hm hf₁
    obtain ⟨c₂, h₂, hc₂⟩ := finishClose_closes hm hf₁
    exact ⟨c₁, c₂, he, h₂, hc₂⟩
  intro e he
  simp only [endings, List.mem_cons, List.not_mem_nil, or_false] at he
  rcases he with rfl | rfl | rfl
  · have hl : handle c.tables (c.tables.handle h).session (c.tables.handle h).treeID
        (c.tables.handle h).id = some h := by
      rw [handle, show (c.tables.session _).handles.lookup _ = some h from hr]
      simp [hf]
    apply through
    · simp only [next, hl]
      rfl
    · exact List.mem_cons_self
    · exact hf
  · apply through
    · simp only [next, if_pos hlt]
      rfl
    · rw [treeDisconnect, if_pos ht]
      apply List.mem_append_left
      exact List.mem_filter.2 ⟨hlisted, by simp⟩
    · rw [treeDisconnect, if_pos ht]
      exact hf
  apply through
  · simp only [next, if_pos hlt]
    rfl
  · rw [closeSession, if_pos hc]
    exact List.mem_append_left _ hlisted
  · rw [closeSession, if_pos hc]
    exact hf

/-- A TREE_DISCONNECT that sweeps the handle of a CREATE in flight leaves it to be committed
without being listed anywhere, with its file open. -/
theorem swept_create_orphaned (hv : Invariant c) (hn : c.creates n = some ⟨s, treeID, .reserved h⟩)
    (hcur : c.tables.Current s) (info : FileInfo) : ∃ c' f,
      run next c [.treeDisconnect s treeID, .finishClose h, .createOpen n, .createCommit n info] =
        some c' ∧ c'.creates n = none ∧ (c'.tables.handle h).file = some f ∧
      c'.isOpen f = true ∧ ¬ c'.tables.Registered h := by
  have hf := hv.flying n _ hn
  obtain ⟨hlt, hks, hkt, hkf⟩ := hf.handle h rfl
  obtain ⟨hr, -⟩ := hf.pending h rfl hcur
  have hsame : SameRegistry c.tables (cutTree c.tables s treeID) := same_setSession rfl rfl rfl
  have hu := closeHandle_unregisters (cutTree c.tables s treeID) h
  have hcur' : (closeHandle (cutTree c.tables s treeID) h).Current
      ((closeHandle (cutTree c.tables s treeID) h).handle h).session := by
    rw [hu.handle, hu.current, cutTree_current]
    exact hks.symm ▸ hcur
  have hnot : ¬ (closeHandle (cutTree c.tables s treeID) h).Registered h := by
    rw [hu.registered (hv.indexed.of_same hsame) (hv.numbered.of_same hsame) hlt]
    exact fun hx => hx.2 rfl
  -- the states after the tree is cut, the handle is closed and the file is open
  let c₁ : System := { c.setTables (cutTree c.tables s treeID) with
    closing := (listed c.tables s).filter (fun k => (c.tables.handle k).treeID = treeID) ++
      c.closing }
  let c₂ : System := { c₁.setTables (closeHandle c₁.tables h) with closing := c₁.closing.erase h }
  let c₃ : System := { (c₂.setOpen c₂.nextFile true).setFlight n
    (some ⟨s, treeID, .opened h c₂.nextFile⟩) with nextFile := c₂.nextFile + 1 }
  have h₁ : next c (.treeDisconnect s treeID) = some c₁ := by
    simp only [next, if_pos hf.session, treeDisconnect, if_pos hf.tree]
    rfl
  have h₂ : next c₁ (.finishClose h) = some c₂ := by
    have hm : h ∈ c₁.closing := by
      apply List.mem_append_left
      exact List.mem_filter.2 ⟨(mem_listed hv.indexed).2 ⟨hr, hks⟩, by simp [hkt]⟩
    have hnone : (c₁.tables.handle h).file = none := hkf
    simp only [next, if_pos hm, hnone]
    rfl
  have h₃ : next c₂ (.createOpen n) = some c₃ := by
    have hn₂ : c₂.creates n = some ⟨s, treeID, .reserved h⟩ := hn
    simp only [next, hn₂]
    rfl
  have hn₃ : c₃.creates n = some ⟨s, treeID, .opened h c₂.nextFile⟩ := setFlight_self _ _ _
  have hcom : commits c₃ h c₂.nextFile info = true := commits_iff.2 hcur'
  refine ⟨(c₃.setTables (commitHandle c₃.tables h c₂.nextFile info).2).setFlight n none,
    c₂.nextFile, ?_, setFlight_self _ _ _, ?_, ?_, ?_⟩
  · simp only [run_cons]
    refine ⟨c₁, h₁, c₂, h₂, c₃, h₃, _, ?_, rfl⟩
    simp only [next, hn₃, hcom, if_true]
  · rw [commitHandle_current (show c₃.tables.Current (c₃.tables.handle h).session from hcur')]
    exact congrArg OpenHandle.file (attach_self _ _ _ _)
  · simp [c₃, System.setFlight, System.setTables, System.setOpen]
  · rw [commitHandle_current (show c₃.tables.Current (c₃.tables.handle h).session from hcur')]
    exact fun hx => hnot (((attach_same _ _ _ _).registered h).1 hx)

/-- In every run whose steps are calm, a CREATE that commits has a handle that its session lists,
that is among the opens of its path and whose session and tree are still there, so that CLOSE,
TREE_DISCONNECT and the end of the session each close its file; and every file that is open has
someone left to close it. A disconnect that is not calm can leave an open file to nobody. -/
theorem committed_handle_attached {es : List Event} {c : System}
    (hcalm : Meets next Calm start es) (hrun : run next start es = some c) :
    (∀ n s treeID h f info c', c.creates n = some ⟨s, treeID, .opened h f⟩ →
      commits c h f info = true → next c (.createCommit n info) = some c' →
      (c'.tables.handle h).session = s ∧ (c'.tables.handle h).treeID = treeID ∧
      (c'.tables.handle h).file = some f ∧ Attached c'.tables h ∧
      h ∈ members c'.tables.opens (c'.tables.handle h).path ∧ Closable c' h f) ∧
    (∀ f, c.isOpen f = true → Owned c f) ∧
    ∀ n s treeID h info, c.creates n = some ⟨s, treeID, .reserved h⟩ → c.tables.Current s →
      ∃ c' f, run next c [.treeDisconnect s treeID, .finishClose h, .createOpen n,
          .createCommit n info] = some c' ∧ c'.creates n = none ∧
        (c'.tables.handle h).file = some f ∧ c'.isOpen f = true ∧ ¬ c'.tables.Registered h := by
  have hv := run_invariant_of_meets next_invariant start_invariant hcalm hrun
  refine ⟨fun n s treeID h f info c' hn hcom hnext => ?_, hv.owned,
    fun n s treeID h info hn hcur => swept_create_orphaned hv hn hcur info⟩
  have hv' := next_invariant c (.createCommit n info) c' hv trivial hnext
  obtain ⟨-, hks, hkt, -⟩ := (hv.flying n _ hn).handle h rfl
  have hcur := commits_iff.1 hcom
  simp only [next, hn, hcom, if_true] at hnext
  cases hnext
  have hst : (commitHandle c.tables h f info).2 = attach c.tables h f info :=
    congrArg Prod.snd (commitHandle_current hcur f info)
  have hself := attach_self c.tables h f info
  have hcur' : c.tables.Current s := by
    rw [hks] at hcur
    exact hcur
  have hatt := (hv.commit hn hcur' info).1
  rw [← hst] at hatt hself
  have hfile : ((commitHandle c.tables h f info).2.handle h).file = some f :=
    congrArg OpenHandle.file hself
  refine ⟨?_, ?_, hfile, hatt, ?_, hatt.closable hv'.indexed hfile⟩
  · exact (congrArg OpenHandle.session hself).trans hks
  · exact (congrArg OpenHandle.treeID hself).trans hkt
  · exact (hv'.indexed.listed _ h).2 ⟨rfl, hatt.1⟩

def readFile : OpenHandle :=
  ⟨⟨0, 0⟩, 0, 0, [['a']], none, noInfo, accessReadData, shareRead, 0, false⟩

/-- A CREATE up to its commit, with nothing else going on. -/
def oneCreate : List Event :=
  [.newSession 0 [2], .treeConnect 0, .createLookup 0 0 1, .createReserve 0 readFile,
    .createOpen 0]

theorem committed_handle_attached_oneCreate : ∃ c c', run next start oneCreate = some c ∧
    next c (.createCommit 0 noInfo) = some c' ∧ Attached c'.tables 0 ∧ Closable c' 0 0 := by
  have hcalm : Meets next Calm start oneCreate := by
    refine .cons rfl trivial (.cons rfl trivial (.cons rfl trivial (.cons rfl ?_
      (.cons rfl trivial trivial))))
    intro fl hfl
    rw [setFlight_self] at hfl
    cases hfl
    decide +kernel
  have hrun : ∃ c c', run next start oneCreate = some c ∧
      c.creates 0 = some ⟨0, 1, .opened 0 0⟩ ∧ commits c 0 0 noInfo = true ∧
      next c (.createCommit 0 noInfo) = some c' := ⟨_, _, rfl, rfl, rfl, rfl⟩
  obtain ⟨c, c', hc, hn, hcom, hnext⟩ := hrun
  have h := (committed_handle_attached hcalm hc).1 0 0 1 0 0 noInfo c' hn hcom hnext
  exact ⟨c, c', hc, hnext, h.2.2.2.1, h.2.2.2.2.2⟩

/-- The tree is disconnected between the reservation and the commit. -/
def sweptCreate : List Event :=
  [.newSession 0 [2], .treeConnect 0, .createLookup 0 0 1, .createReserve 0 readFile,
    .treeDisconnect 0 1, .finishClose 0, .createOpen 0]

theorem swept_create_answers_success : ∃ c c', run next start sweptCreate = some c ∧
    c.creates 0 = some ⟨0, 1, .opened 0 0⟩ ∧ commits c 0 0 noInfo = true ∧
    next c (.createCommit 0 noInfo) = some c' ∧ c'.creates 0 = none ∧
    (c'.tables.handle 0).file = some 0 ∧ c'.isOpen 0 = true ∧ ¬ c'.tables.Registered 0 ∧
    members c'.tables.opens [['a']] = [] ∧ (c'.tables.session 0).trees = [] ∧
    c'.closing = [] := by
  refine ⟨_, _, rfl, rfl, rfl, rfl, rfl, rfl, rfl, ?_, rfl, rfl, rfl⟩
  decide +kernel

end Runs

end SmbCreate
