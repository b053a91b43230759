import FacetFS.SmbTables
import FacetFS.SmbHandlers

/-! # Where the authority of a session comes from

A session is authenticated by one message: the second leg of an NTLM exchange that answers the
challenge of that very session. Until then it has no trees, no handles and no snapshots. Both are
kept by every command. A command on behalf of a message that names no authenticated session leaves
the file system, the trees, the handles, the byte locks and the snapshots as they are. -/
namespace SmbAuthority

open SmbState SmbTables SmbWire SmbServer SmbHandlers GroupIndex EffectTriple
open Function (forall_update_iff update_of_ne update_self)

variable {φ α : Type}

variable (h : HandleRef) (f : FileRef) (r : OpenHandle)

section Records

variable (st : State) (s : SessionRef)

/-- A session with empty tables. -/
structure Bare (r : Session) : Prop where
  trees : r.trees = []
  handles : r.handles = ∅
  snapshots : r.snapshots = ∅

/-- What authenticates a session is not changed. -/
structure SameIdentity (r r' : Session) : Prop where
  id : r'.id = r.id
  conn : r'.conn = r.conn
  authenticated : r'.authenticated = r.authenticated
  challenge : r'.challenge = r.challenge

theorem SameIdentity.refl (r : Session) : SameIdentity r r := ⟨rfl, rfl, rfl, rfl⟩

/-- What a step on the tables may do without regard to authentication: sessions leave the map, and
only authenticated sessions get new entries. -/
structure Calm (st st' : State) : Prop where
  sessions : ∀ id s, st'.sessions.lookup id = some s → st.sessions.lookup id = some s
  nextSession : st'.nextSession = st.nextSession
  identity : ∀ s, SameIdentity (st.session s) (st'.session s)
  bare : ∀ s, (st.session s).authenticated = false → Bare (st.session s) → Bare (st'.session s)
  nextOpen : st.nextOpen ≤ st'.nextOpen
  owner : ∀ h, h < st.nextOpen → (st'.handle h).session = (st.handle h).session
  entry : ∀ s id h, (st'.session s).handles.lookup id = some h →
    (st.session s).handles.lookup id = some h ∨ (h < st'.nextOpen ∧ (st'.handle h).session = s)

theorem Calm.refl : Calm st st :=
  ⟨fun _ _ h => h, rfl, fun _ => .refl _, fun _ _ h => h, le_rfl, fun _ _ => rfl,
    fun _ _ _ h => .inl h⟩

theorem calm_setSession (r : Session)
    (hi : SameIdentity (st.session s) r)
    (hb : (st.session s).authenticated = false → Bare (st.session s) → Bare r)
    (he : ∀ id h, r.handles.lookup id = some h → (st.session s).handles.lookup id = some h) :
    Calm st (st.setSession s r) := by
  refine ⟨fun _ _ h => h, rfl, ?_, ?_, le_rfl, fun _ _ => rfl, fun t id h hl => .inl ?_⟩
  · exact (forall_update_iff st.session fun t q => SameIdentity (st.session t) q).2 ⟨hi, fun _ _ => .refl _⟩
  · exact (forall_update_iff st.session fun t q => (st.session t).authenticated = false →
      Bare (st.session t) → Bare q).2 ⟨hb, fun _ _ _ h => h⟩
  · exact (forall_update_iff st.session fun t q => q.handles.lookup id = some h →
      (st.session t).handles.lookup id = some h).2 ⟨he id h, fun _ _ hl => hl⟩ t hl

theorem lookup_of_lookup_erase {l : AList fun _ : FileID => HandleRef} {a id : FileID}
    {h : HandleRef} (hl : (l.erase a).lookup id = some h) : l.lookup id = some h := by
  by_cases hid : id = a
  · subst hid
    rw [AList.lookup_erase] at hl
    cases hl
  · rwa [AList.lookup_erase_ne hid] at hl

theorem Calm.with_tables {st st'} (h : Calm st st') (opens : Index Path HandleRef)
    (locks : Index Path ByteLock) : Calm st { st' with opens := opens, locks := locks } :=
  { h with }

theorem calm_dropHandle (id : FileID) {snaps} (hs : (st.session s).snapshots = ∅ → snaps = ∅) :
    Calm st (st.setSession s { st.session s with
      handles := (st.session s).handles.erase id
      snapshots := snaps }) := by
  refine calm_setSession st s _ ⟨rfl, rfl, rfl, rfl⟩ (fun _ hb => ⟨hb.trees, ?_, hs hb.snapshots⟩)
    fun _ _ hl => lookup_of_lookup_erase hl
  change (st.session s).handles.erase id = ∅
  rw [hb.handles]
  rfl

theorem abortHandle_calm (h : HandleRef) : Calm st (abortHandle st h) :=
  (calm_dropHandle st (st.handle h).session (st.handle h).id id).with_tables _ _

theorem closeHandle_calm (h : HandleRef) : Calm st (SmbState.closeHandle st h) := by
  refine (calm_dropHandle st (st.handle h).session (st.handle h).id fun hs => ?_).with_tables _ _
  rw [hs]
  rfl

theorem dropSession_calm : Calm st (dropSession st s) := by
  refine { Calm.refl st with sessions := fun id t hl => ?_ }
  by_cases hid : id = (st.session s).id
  · subst hid
    rw [dropSession, AList.lookup_erase] at hl
    cases hl
  · rwa [dropSession, AList.lookup_erase_ne hid] at hl

theorem closeSession_calm : Calm st (SmbState.closeSession st s).2 := by
  rw [SmbState.closeSession]
  split
  · exact dropSession_calm st s
  · exact .refl st

theorem treeDisconnect_calm (treeID : UInt32) :
    Calm st (SmbState.treeDisconnect st s treeID).2 := by
  rw [SmbState.treeDisconnect]
  split
  · refine calm_setSession st s _ ⟨rfl, rfl, rfl, rfl⟩
      (fun _ hb => ⟨?_, hb.handles, hb.snapshots⟩) fun _ _ hl => hl
    change (st.session s).trees.erase treeID = []
    rw [hb.trees]
    rfl
  · exact .refl st

theorem treeConnect_calm {st s}
    (ha : (st.session s).authenticated = true) : Calm st (SmbState.treeConnect st s).2 := by
  rw [SmbState.treeConnect]
  split
  · exact .refl st
  refine calm_setSession st s _ ⟨rfl, rfl, rfl, rfl⟩ (fun hf => ?_) fun _ _ hl => hl
  rw [ha] at hf
  cases hf

theorem calm_handles (f : HandleRef → OpenHandle)
    (hf : ∀ h, (f h).session = (st.handle h).session) : Calm st { st with handle := f } :=
  ⟨fun _ _ h => h, rfl, fun _ => .refl _, fun _ _ h => h, le_rfl, fun h _ => hf h,
    fun _ _ _ h => .inl h⟩

theorem setHandle_calm {st h r}
    (hs : r.session = (st.handle h).session) : Calm st (st.setHandle h r) :=
  calm_handles st _ (update_field hs)

theorem commitHandle_calm (h : HandleRef) (f : FileRef) (info : FileInfo) :
    Calm st (commitHandle st h f info).2 := by
  rw [commitHandle]
  split
  · exact setHandle_calm rfl
  · exact .refl st

theorem renameOpens_calm (oldName newName : Path) : Calm st (renameOpens st oldName newName) :=
  (calm_handles st _ fun h => renameOpens_session st oldName newName h).with_tables _ _

theorem lock_calm (h : HandleRef) (es : List LockElement) : Calm st (SmbState.lock st h es).2 := by
  rw [SmbState.lock]
  split <;> exact { Calm.refl st with }

theorem addHandle_calm {st s} (ha : (st.session s).authenticated = true)
    (r : OpenHandle) : Calm st (addHandle st s r).2 := by
  rcases addHandle_cases st s r with ⟨_, h⟩ | ⟨h, -, -⟩
  · rw [h]
    exact .refl st
  rw [h]
  refine ⟨fun _ _ hl => hl, rfl, fun t => ?_, fun t => ?_, Nat.le_succ _, fun k hk => ?_,
    fun t id k hl => ?_⟩
  · by_cases ht : t = s
    · subst ht
      simp only [register, update_self]
      exact ⟨rfl, rfl, rfl, rfl⟩
    · rw [register_session_other ht]
      exact .refl _
  · by_cases ht : t = s
    · subst ht
      intro hf
      rw [ha] at hf
      cases hf
    · rw [register_session_other ht]
      exact fun _ hb => hb
  · rw [register_handle_old hk]
  · rcases register_lookup hl with ⟨rfl, -, rfl⟩ | hl
    · right
      rw [register_handle_new]
      exact ⟨Nat.lt_succ_self _, rfl⟩
    · exact .inl hl

end Records

section Provenance

/-- The first leg of an exchange gave out the challenge of this session. -/
def Issued (log : List Dispatched) (r : Session) : Prop :=
  ∃ d ∈ log, d.conn = r.conn ∧ d.msg.hdr.command = cmdSessionSetup ∧ d.msg.hdr.sessionID = 0 ∧
    d.env.challenge = some r.challenge

/-- A message that named this session brought a token that answers its challenge. -/
def Proven (srv : Server φ) (log : List Dispatched) (s : SessionRef) (r : Session) : Prop :=
  ∃ d ∈ log, d.conn = r.conn ∧ d.session = some s ∧ d.msg.hdr.command = cmdSessionSetup ∧
    d.msg.hdr.sessionID = r.id ∧ ∃ blob token result, setupBlob d.msg = some blob ∧
      ntlmToken blob = some token ∧ ntlmType token = some 3 ∧
      authenticateNTLM srv.lib d.env.ntHash token r.challenge = some result

theorem Issued.same {log r r'} (h : Issued log r) (hi : SameIdentity r r') : Issued log r' := by
  rw [Issued, hi.conn, hi.challenge]
  exact h

theorem Proven.same {srv : Server φ} {log : List Dispatched} {s : SessionRef} {r r' : Session}
    (h : Proven srv log s r) (hi : SameIdentity r r') : Proven srv log s r' := by
  rw [Proven, hi.conn, hi.id, hi.challenge]
  exact h

/-- `fresh` is a session whose challenge is not set yet. -/
structure Gated (srv : Server φ) (log : List Dispatched) (fresh : Option SessionRef) (st : State) :
    Prop where
  known : ∀ id s, st.sessions.lookup id = some s → s < st.nextSession ∧ (st.session s).id = id
  old : ∀ s, (st.session s).authenticated = true → s < st.nextSession
  bare : ∀ s, (st.session s).authenticated = false → Bare (st.session s)
  owner : ∀ s id h, (st.session s).handles.lookup id = some h →
    h < st.nextOpen ∧ (st.handle h).session = s
  issued : ∀ id s, st.sessions.lookup id = some s → fresh ≠ some s → Issued log (st.session s)
  proven : ∀ s, (st.session s).authenticated = true →
    Issued log (st.session s) ∧ Proven srv log s (st.session s)

variable {srv : Server φ} {log : List Dispatched} {fresh : Option SessionRef} {st st' : State}

theorem gated_new (srv : Server φ) (log : List Dispatched) : Gated srv log none newServerState where
  known id s hl := by simp [newServerState] at hl
  old s ha := by simp [newServerState, newSessionRecord] at ha
  bare s _ := ⟨rfl, rfl, rfl⟩
  owner s id h hl := by simp [newServerState, newSessionRecord] at hl
  issued id s hl := by simp [newServerState] at hl
  proven s ha := by simp [newServerState, newSessionRecord] at ha

theorem Gated.calm (hg : Gated srv log fresh st) (hc : Calm st st') : Gated srv log fresh st' where
  known id s hl := by
    rw [hc.nextSession, (hc.identity s).id]
    exact hg.known id s (hc.sessions id s hl)
  old s ha := by
    rw [(hc.identity s).authenticated] at ha
    rw [hc.nextSession]
    exact hg.old s ha
  bare s ha := by
    rw [(hc.identity s).authenticated] at ha
    exact hc.bare s ha (hg.bare s ha)
  owner s id h hl := by
    rcases hc.entry s id h hl with hl | hl
    · obtain ⟨hlt, hs⟩ := hg.owner s id h hl
      exact ⟨hlt.trans_le hc.nextOpen, (hc.owner h hlt).trans hs⟩
    · exact hl
  issued id s hl hf := (hg.issued id s (hc.sessions id s hl) hf).same (hc.identity s)
  proven s ha := by
    rw [(hc.identity s).authenticated] at ha
    obtain ⟨hi, hp⟩ := hg.proven s ha
    exact ⟨hi.same (hc.identity s), hp.same (hc.identity s)⟩

theorem Gated.log_cons (hg : Gated srv log fresh st) (d : Dispatched) :
    Gated srv (d :: log) fresh st where
  known := hg.known
  old := hg.old
  bare := hg.bare
  owner := hg.owner
  issued id s hl hf := by
    obtain ⟨e, he, h⟩ := hg.issued id s hl hf
    exact ⟨e, List.mem_cons_of_mem d he, h⟩
  proven s ha := by
    obtain ⟨⟨e, he, hi⟩, ⟨f, hf, hp⟩⟩ := hg.proven s ha
    exact ⟨⟨e, List.mem_cons_of_mem d he, hi⟩, ⟨f, List.mem_cons_of_mem d hf, hp⟩⟩

theorem gated_openSession (hg : Gated srv log none st) (id : UInt64) (c : ConnRef) :
    Gated srv log (some st.nextSession) (openSession st id c) := by
  have hlook : ∀ a s, (openSession st id c).sessions.lookup a = some s →
      s = st.nextSession ∧ a = id ∨ st.sessions.lookup a = some s ∧ s ≠ st.nextSession := by
    intro a s hl
    by_cases ha : a = id
    · subst ha
      rw [openSession, AList.lookup_insert] at hl
      exact .inl ⟨(Option.some.inj hl).symm, rfl⟩
    · rw [openSession, AList.lookup_insert_ne ha] at hl
      exact .inr ⟨hl, (hg.known a s hl).1.ne⟩
  refine ⟨fun a s hl => ?_, ?_, ?_, fun s fid h hl => hg.owner s fid h (openSession_lookup hl),
    fun a s hl hf => ?_, ?_⟩
  · rcases hlook a s hl with ⟨rfl, rfl⟩ | ⟨hl, hs⟩
    · refine ⟨Nat.lt_succ_self _, ?_⟩
      simp [openSession, newSessionRecord]
    · obtain ⟨hlt, hid⟩ := hg.known a s hl
      rw [openSession_session_old st id c hlt]
      exact ⟨Nat.lt_succ_of_lt hlt, hid⟩
  · exact (forall_update_iff st.session fun s q => q.authenticated = true → s < st.nextSession + 1).2
      ⟨fun h => (by cases h), fun s _ ha => Nat.lt_succ_of_lt (hg.old s ha)⟩
  · exact (forall_update_iff st.session fun _ q => q.authenticated = false → Bare q).2
      ⟨fun _ => ⟨rfl, rfl, rfl⟩, fun s _ => hg.bare s⟩
  · rcases hlook a s hl with ⟨rfl, rfl⟩ | ⟨hl, hs⟩
    · exact absurd rfl hf
    · rw [openSession_session_old st id c (hg.known a s hl).1]
      exact hg.issued a s hl (Option.some_ne_none s).symm
  · exact (forall_update_iff st.session fun s q => q.authenticated = true →
      Issued log q ∧ Proven srv log s q).2 ⟨fun h => (by cases h), fun s _ => hg.proven s⟩

theorem Gated.close_fresh {s} (hg : Gated srv log (some s) st) :
    Gated srv log none (SmbState.closeSession st s).2 := by
  have hgone : ∀ id, (SmbState.closeSession st s).2.sessions.lookup id ≠ some s := by
    intro id hl
    rw [SmbState.closeSession] at hl
    split at hl
    · rename_i hcur
      by_cases hid : id = (st.session s).id
      · subst hid
        rw [dropSession, AList.lookup_erase] at hl
        cases hl
      · rw [dropSession, AList.lookup_erase_ne hid] at hl
        exact hid (hg.known id s hl).2.symm
    · rename_i hcur
      obtain ⟨-, rfl⟩ := hg.known id s hl
      exact hcur hl
  have hc := hg.calm (closeSession_calm st s)
  refine { hc with issued := fun id t hl _ => hc.issued id t hl ?_ }
  intro he
  cases he
  exact hgone id hl

/-- An update of a session in the map, given where its challenge and its authentication come
from. -/
theorem Gated.update {s id r} (hg : Gated srv log fresh st) (hf : fresh = none ∨ fresh = some s)
    (hl : st.sessions.lookup id = some s) (hid : r.id = (st.session s).id)
    (hh : r.handles = (st.session s).handles) (hb : r.authenticated = false → Bare r)
    (hi : Issued log r) (hp : r.authenticated = true → Proven srv log s r) :
    Gated srv log none (st.setSession s r) := by
  refine ⟨fun a t hl => ⟨(hg.known a t hl).1, ?_⟩, ?_, ?_, fun t fid h => ?_, fun a t hl' _ => ?_, ?_⟩
  · exact (forall_update_iff st.session fun t q => st.sessions.lookup a = some t → q.id = a).2
      ⟨fun hl => hid.trans (hg.known a s hl).2, fun t _ hl => (hg.known a t hl).2⟩ t hl
  · exact (forall_update_iff st.session fun t q => q.authenticated = true → t < st.nextSession).2
      ⟨fun _ => (hg.known id s hl).1, fun t _ => hg.old t⟩
  · exact (forall_update_iff st.session fun _ q => q.authenticated = false → Bare q).2
      ⟨hb, fun t _ => hg.bare t⟩
  · refine (forall_update_iff st.session fun t q => q.handles.lookup fid = some h →
      h < st.nextOpen ∧ (st.handle h).session = t).2 ⟨?_, fun t _ => hg.owner t fid h⟩ t
    rw [hh]
    exact hg.owner s fid h
  · refine (forall_update_iff st.session fun t q => st.sessions.lookup a = some t → Issued log q).2
      ⟨fun _ => hi, fun t ht hl' => hg.issued a t hl' ?_⟩ t hl'
    rcases hf with rfl | rfl
    · exact nofun
    · exact fun he => ht (Option.some.inj he).symm
  · exact (forall_update_iff st.session fun t q => q.authenticated = true →
      Issued log q ∧ Proven srv log t q).2 ⟨fun ha => ⟨hi, hp ha⟩, fun t _ => hg.proven t⟩

end Provenance

section Running

variable {srv : Server φ} {log : List Dispatched}

/-- The state of a command: nothing is logged meanwhile, and the gate stands. -/
def Running (srv : Server φ) (log : List Dispatched) (w : World φ) : Prop :=
  w.log = log ∧ Gated srv log none w.tables

theorem running_call (f : φ → α × φ) : Keeps (Running srv log) (call f) := fun _ hw => hw

theorem running_locked {f : State → α × State} (hf : ∀ st, Calm st (f st).2) :
    Keeps (Running srv log) (locked f) := fun w hw => ⟨hw.1, hw.2.calm (hf w.tables)⟩

theorem running_closeFile : Keeps (Running srv log) (closeFile srv f) :=
  running_call _

theorem running_closeHandle : Keeps (Running srv log) (closeHandle srv h) := by
  refine (reads_getHandle h).keeps.bind fun r =>
    (running_locked fun st => closeHandle_calm st h).bind fun _ => ?_
  cases r.file with
  | none => exact .pure ()
  | some f => exact running_closeFile f

theorem running_removeName (name : Path) : Keeps (Running srv log) (removeName srv name) := by
  rw [removeName]
  split
  · exact running_call _
  · exact running_call _

theorem running_closeOpen : Keeps (Running srv log) (closeOpen srv h) :=
  (reads_getHandle h).keeps.bind fun _ => (running_closeHandle h).bind fun _ =>
    Keeps.ite (running_removeName _) (.pure _)

theorem running_closeAll (hs : List HandleRef) : Keeps (Running srv log) (closeAll srv hs) :=
  Keeps.forM hs fun h => (running_closeOpen h).bind fun _ => .pure _

theorem running_closeSession (srv : Server φ) (log : List Dispatched) (s : SessionRef) :
    Keeps (Running srv log) (closeSession srv s) :=
  (running_locked fun st => closeSession_calm st s).bind fun hs => running_closeAll hs

/-- The state of a command on behalf of an authenticated session. -/
def Acting (srv : Server φ) (log : List Dispatched) (s : SessionRef) (w : World φ) : Prop :=
  Running srv log w ∧ (w.tables.session s).authenticated = true

theorem acting_call (s : SessionRef) (f : φ → α × φ) : Keeps (Acting srv log s) (call f) :=
  fun _ hw => hw

theorem acting_locked {s : SessionRef} {f : State → α × State}
    (hf : ∀ st : State, (st.session s).authenticated = true → Calm st (f st).2) :
    Keeps (Acting srv log s) (locked f) := by
  rintro w ⟨⟨hlog, hg⟩, ha⟩
  have hc := hf w.tables ha
  exact ⟨⟨hlog, hg.calm hc⟩, ((hc.identity s).authenticated).trans ha⟩

theorem acting_snapshots {s} (f : Session → AList fun _ : FileID => DirSnapshot) :
    Keeps (Acting srv log s) (updateSession s fun r => { r with snapshots := f r }) := by
  apply acting_locked
  intro st ha
  refine calm_setSession st s _ ⟨rfl, rfl, rfl, rfl⟩ (fun hf => ?_) fun _ _ hl => hl
  rw [ha] at hf
  cases hf

end Running

/-- No call on the file system, and no change of a tree, a handle, a byte lock or a snapshot. -/
structure Untouched (w w' : World φ) : Prop where
  fs : w'.fs = w.fs
  calls : w'.calls = w.calls
  trees : ∀ s, (w'.tables.session s).trees = (w.tables.session s).trees
  handles : ∀ s, (w'.tables.session s).handles = (w.tables.session s).handles
  snapshots : ∀ s, (w'.tables.session s).snapshots = (w.tables.session s).snapshots
  handle : w'.tables.handle = w.tables.handle
  opens : w'.tables.opens = w.tables.opens
  locks : w'.tables.locks = w.tables.locks

theorem Untouched.refl (w : World φ) : Untouched w w :=
  ⟨rfl, rfl, fun _ => rfl, fun _ => rfl, fun _ => rfl, rfl, rfl, rfl⟩

theorem Untouched.trans {u v w : World φ} (h : Untouched u v) (h' : Untouched v w) :
    Untouched u w :=
  ⟨h'.fs.trans h.fs, h'.calls.trans h.calls, fun s => (h'.trees s).trans (h.trees s),
    fun s => (h'.handles s).trans (h.handles s), fun s => (h'.snapshots s).trans (h.snapshots s),
    h'.handle.trans h.handle, h'.opens.trans h.opens, h'.locks.trans h.locks⟩

section Commands

variable {srv : Server φ} {c : ConnRef} {env : Env} {m : Message} {w₀ : World φ}

variable {w : World φ} {log : List Dispatched} {s : SessionRef}

/-- The tables, the file system and the log are still those a command found. -/
structure Start (w₀ w : World φ) : Prop where
  tables : w.tables = w₀.tables
  fs : w.fs = w₀.fs
  calls : w.calls = w₀.calls
  log : w.log = w₀.log

theorem Start.refl (w : World φ) : Start w w := ⟨rfl, rfl, rfl, rfl⟩

theorem Start.untouched {w} (h : Start w₀ w) : Untouched w₀ w := by
  refine ⟨h.fs, h.calls, fun s => ?_, fun s => ?_, fun s => ?_, ?_, ?_, ?_⟩ <;> rw [h.tables]

/-- After a command the gate stands, and if the message names no authenticated session then nothing
was touched. -/
def End (srv : Server φ) (c : ConnRef) (m : Message) (w₀ w : World φ) : Prop :=
  Running srv w₀.log w ∧ (Untouched w₀ w ∨ ∃ s, Authenticated w₀ c m s)

/-- The commands other than LOGOFF, which leave no session to close. -/
def Ends (srv : Server φ) (c : ConnRef) (m : Message) (w₀ : World φ) (x : Action φ Reply) : Prop :=
  Triple (Start w₀) x (fun r w => End srv c m w₀ w ∧ r.closeSession = none) (End srv c m w₀)

def Serves (srv : Server φ) (log : List Dispatched) (x : Action φ Reply) : Prop :=
  Triple (Running srv log) x (fun r w => Running srv log w ∧ r.closeSession = none)
    (Running srv log)

theorem serves_pure {log r} (h : r.closeSession = none) : Serves srv log (pure r) :=
  Triple.pure r fun _ hw => ⟨hw, h⟩

theorem serves_bind {x : Action φ α} {f : α → Action φ Reply}
    (hx : Keeps (Running srv log) x) (hf : ∀ a, Serves srv log (f a)) : Serves srv log (x >>= f) :=
  Triple.bind hx hf

/-- A computation on behalf of a session that ends with a reply. -/
def Acts (srv : Server φ) (log : List Dispatched) (s : SessionRef) (x : Action φ Reply) : Prop :=
  Triple (Acting srv log s) x (fun r w => Acting srv log s w ∧ r.closeSession = none)
    (Acting srv log s)

theorem acts_pure {log s r} (h : r.closeSession = none) : Acts srv log s (pure r) :=
  Triple.pure r fun _ hw => ⟨hw, h⟩

theorem acts_bind {x : Action φ α} {f : α → Action φ Reply}
    (hx : Keeps (Acting srv log s) x) (hf : ∀ a, Acts srv log s (f a)) : Acts srv log s (x >>= f) :=
  Triple.bind hx hf

theorem Start.authenticated {w s} (h : Start w₀ w)
    (ha : Authenticated w c m s) : Authenticated w₀ c m s := by
  rw [Authenticated, ← h.tables]
  exact ha

theorem running_syncFile {log} : Keeps (Running srv log) (syncFile srv f) := by
  rw [syncFile]
  split
  · exact (running_call _).bind fun r => (reads_fsOk r).keeps
  · exact .pure ()

theorem running_setClass {log} (cls : UInt8)
    (data : Bytes) : Keeps (Running srv log) (setClass srv h r cls data) := by
  refine Keeps.ite ?_ (Keeps.ite ?_ (Keeps.ite ?_ (Keeps.ite ?_ (.throw _))))
  · exact (Keeps.require _ _).bind fun _ => (running_call _).bind fun r =>
      (reads_fsOk r).keeps.bind fun _ => Keeps.ite (.pure ())
      ((running_call _).bind fun r => (reads_fsOk r).keeps)
  · exact (Keeps.refuse _ _).bind fun _ => (Keeps.orThrow _).bind fun _ =>
      (Keeps.ite ((running_call _).bind fun _ => .refuse _ _) (.pure ())).bind fun _ =>
      (running_call _).bind fun r => (reads_fsOk r).keeps.bind fun _ =>
      running_locked fun st => renameOpens_calm st _ _
  · exact (Keeps.refuse _ _).bind fun _ => (Keeps.refuse _ _).bind fun _ =>
      (Keeps.refuse _ _).bind fun _ => running_locked fun st => setHandle_calm rfl
  · exact (Keeps.require _ _).bind fun _ => (Keeps.refuse _ _).bind fun _ =>
      (running_call _).bind fun r => (reads_fsOk r).keeps

theorem running_infoData {log} (infoType cls : UInt8) (r : OpenHandle)
    (info : FileInfo) : Keeps (Running srv log) (infoData srv infoType cls r info) := by
  refine Keeps.ite (.require _ _) (Keeps.ite (Keeps.bind ?_ fun _ => .orThrow _) (.throw _))
  rw [volumeStat]
  split
  · exact .pure _
  · exact (running_call _).bind fun r => (reads_fsOk r).keeps.bind fun _ => .pure _

theorem serves_queryInfoResponse {log} (data : Bytes) (n : ℕ) :
    Serves srv log (queryInfoResponse data n) :=
  serves_bind (.refuse _ _) fun _ => serves_pure rfl

theorem serves_ite {log} {p : Prop} [Decidable p] {x y}
    (hx : Serves srv log x) (hy : Serves srv log y) : Serves srv log (if p then x else y) := by
  split
  · exact hx
  · exact hy

theorem acting_readDirectory {log} (s : SessionRef) (f : FileRef)
    (limit fuel : ℕ) (entries : List FileInfo) :
    Keeps (Acting srv log s) (readDirectory srv f limit fuel entries) := by
  induction fuel generalizing entries with
  | zero => exact .pure _
  | succ fuel ih =>
    refine (acting_call s _).bind fun r => Keeps.ite (.pure _) ?_
    split
    · exact .pure _
    · exact .pure _
    · exact Keeps.ite (.pure _) (ih _)

theorem acting_takeSnapshot {log} (pattern : Name) :
    Keeps (Acting srv log r.session) (takeSnapshot srv r pattern) :=
  (acting_call _ _).bind fun e => (reads_fsOk e).keeps.bind fun f =>
    (acting_readDirectory _ f _ _ _).bind fun _ => (acting_call _ _).bind fun _ =>
    (Keeps.orThrow _).bind fun _ => reads_tables.keeps.bind fun _ => (Keeps.refuse _ _).bind
    fun _ => acting_snapshots fun rec => rec.snapshots.insert r.id _

theorem acting_refreshSnapshot {log} (restart : Prop) [Decidable restart] (pattern : Name) :
    Keeps (Acting srv log r.session) (refreshSnapshot srv r restart pattern) :=
  reads_tables.keeps.bind fun _ => Keeps.ite (acting_takeSnapshot r pattern) (.pure ())

theorem acts_listEntries {log} (pattern : Name) :
    Acts srv log r.session (listEntries srv m r pattern) :=
  acts_bind (acting_refreshSnapshot r _ pattern) fun _ => acts_bind reads_tables.keeps fun _ =>
    acts_bind (.require _ _) fun _ =>
    acts_bind (acting_snapshots fun rec => rec.snapshots.insert r.id _) fun _ =>
    acts_bind (.refuse _ _) fun _ => acts_bind (.refuse _ _) fun _ =>
    acts_bind (.refuse _ _) fun _ => acts_pure rfl

theorem acting_abortOnError {x : Action φ α}
    (hx : Keeps (Acting srv log s) x) : Keeps (Acting srv log s) (abortOnError h x) := by
  intro w hw
  have hk := hx w hw
  rw [abortOnError]
  cases hxw : x w with
  | ok a u =>
    rw [hxw] at hk
    exact hk
  | error e u =>
    rw [hxw] at hk
    have hc := abortHandle_calm u.tables h
    exact ⟨⟨hk.1.1, hk.1.2.calm hc⟩, ((hc.identity s).authenticated).trans hk.2⟩

theorem acting_closeAndFail {log} (s : SessionRef) (f : FileRef) (e : Status) :
    Keeps (Acting srv log s) (closeAndFail srv f e : Action φ α) :=
  (acting_call s _).bind fun _ => .throw e

theorem acting_openReserved {log} (s : SessionRef) (r : CreateRequest) (info : Option FileInfo)
    (h : HandleRef) : Keeps (Acting srv log s) (openReserved srv r info h) := by
  refine (Keeps.ite ((acting_call s _).bind fun e => (reads_fsOk e).keeps) (.pure ())).bind fun _ =>
    (acting_call s _).bind fun e => (reads_fsOk e).keeps.bind fun f => (acting_call s _).bind
    fun stat => ?_
  split
  · exact acting_closeAndFail s f _
  · exact (acting_locked fun st _ => commitHandle_calm st h f _).bind fun _ =>
      Keeps.ite (.pure _) (acting_closeAndFail s f _)

theorem keeps_updateConn (f : Conn → Conn) : Keeps (Start w₀) (updateConn c f) :=
  fun _ hw => ⟨hw.tables, hw.fs, hw.calls, hw.log⟩

theorem closeSession_bare {s w} (hb : Bare (w.tables.session s)) :
    SmbServer.closeSession srv s w = .ok () { w with tables := (SmbState.closeSession w.tables s).2 } := by
  have hl : (SmbState.closeSession w.tables s).1 = [] := by
    rw [SmbState.closeSession]
    split
    · rw [listed, hb.handles]
      rfl
    · rfl
  rw [SmbServer.closeSession, bind_of_eq_ok (locked_eq_ok.2 ⟨rfl, rfl⟩), hl]
  rfl

theorem closeSession_untouched (st : State) (s : SessionRef) (w : World φ) :
    Untouched { w with tables := st } { w with tables := (SmbState.closeSession st s).2 } := by
  rw [SmbState.closeSession]
  split
  · exact ⟨rfl, rfl, fun _ => rfl, fun _ => rfl, fun _ => rfl, rfl, rfl, rfl⟩
  · exact .refl _

theorem setSession_untouched {r : Session}
    (ht : r.trees = (w.tables.session s).trees) (hh : r.handles = (w.tables.session s).handles)
    (hs : r.snapshots = (w.tables.session s).snapshots) :
    Untouched w { w with tables := w.tables.setSession s r } :=
  ⟨rfl, rfl, update_field ht, update_field hh, update_field hs, rfl, rfl, rfl⟩

theorem openSession_untouched (hg : Gated srv w.log none w.tables) (id : UInt64) :
    Untouched w { w with tables := openSession w.tables id c } := by
  have hbare : Bare (w.tables.session w.tables.nextSession) := by
    apply hg.bare
    by_contra ha
    exact absurd (hg.old _ (by simpa using ha)) (Nat.lt_irrefl _)
  exact ⟨rfl, rfl, update_field hbare.trees.symm, update_field hbare.handles.symm,
    update_field hbare.snapshots.symm, rfl, rfl, rfl⟩

/-- A session of this connection that is in the map and not authenticated. -/
structure Pending (srv : Server φ) (w₀ : World φ) (c : ConnRef) (fresh : Option SessionRef)
    (s : SessionRef) (id : UInt64) (challenge : Bytes) (w : World φ) : Prop where
  log : w.log = w₀.log
  gated : Gated srv w₀.log fresh w.tables
  untouched : Untouched w₀ w
  entry : w.tables.sessions.lookup id = some s
  conn : (w.tables.session s).conn = c
  plain : (w.tables.session s).authenticated = false
  challenge : (w.tables.session s).challenge = challenge
  sole : fresh = none ∨ fresh = some s

variable {fresh : Option SessionRef} {s : SessionRef} {id : UInt64} {challenge : Bytes}

theorem pending_update {r}
    (hr : ∀ q, SameIdentity q (r q) ∧ (r q).trees = q.trees ∧ (r q).handles = q.handles ∧
      (r q).snapshots = q.snapshots) :
    Triple (Pending srv w₀ c fresh s id challenge) (updateSession s r)
      (fun _ => Pending srv w₀ c fresh s id challenge) fun _ => False := by
  intro w hp
  obtain ⟨hi, ht, hh, hs⟩ := hr (w.tables.session s)
  have hsame : ((w.tables.setSession s (r (w.tables.session s))).session s) =
      r (w.tables.session s) := by
    simp [State.setSession]
  refine ⟨hp.log, hp.gated.calm (calm_setSession _ _ _ hi ?_ ?_), ?_, hp.entry, ?_, ?_, ?_, hp.sole⟩
  · intro _ hb
    exact ⟨ht.trans hb.trees, hh.trans hb.handles, hs.trans hb.snapshots⟩
  · intro fid k hk
    rwa [hh] at hk
  · exact hp.untouched.trans (setSession_untouched ht hh hs)
  · change ((w.tables.setSession s (r (w.tables.session s))).session s).conn = c
    rw [hsame, hi.conn, hp.conn]
  · change ((w.tables.setSession s (r (w.tables.session s))).session s).authenticated = false
    rw [hsame, hi.authenticated, hp.plain]
  · change ((w.tables.setSession s (r (w.tables.session s))).session s).challenge = challenge
    rw [hsame, hi.challenge, hp.challenge]

theorem pending_settle {r}
    (hr : ∀ q, (r q).id = q.id ∧ (r q).trees = q.trees ∧ (r q).handles = q.handles ∧
      (r q).snapshots = q.snapshots)
    (hi : ∀ q, q.conn = c → Issued w₀.log q ∨ fresh = some s → Issued w₀.log (r q))
    (hpr : ∀ q, q.conn = c → q.id = id → q.authenticated = false → q.challenge = challenge →
      (r q).authenticated = true → Proven srv w₀.log s (r q)) :
    Triple (Pending srv w₀ c fresh s id challenge) (updateSession s r)
      (fun _ w => End srv c m w₀ w) fun _ => False := by
  intro w hp
  obtain ⟨hid, ht, hh, hs⟩ := hr (w.tables.session s)
  have hissued : Issued w₀.log (w.tables.session s) ∨ fresh = some s := by
    rcases hp.sole with rfl | rfl
    · exact .inl (hp.gated.issued id s hp.entry nofun)
    · exact .inr rfl
  refine ⟨⟨hp.log, hp.gated.update hp.sole hp.entry hid hh ?_ (hi _ hp.conn hissued)
    (hpr _ hp.conn (hp.gated.known id s hp.entry).2 hp.plain hp.challenge)⟩,
    .inl (hp.untouched.trans (setSession_untouched ht hh hs))⟩
  intro _
  have hb := hp.gated.bare s hp.plain
  exact ⟨ht.trans hb.trees, hh.trans hb.handles, hs.trans hb.snapshots⟩

theorem pending_connection : Triple (Pending srv w₀ c fresh s id challenge) (connection c)
    (fun _ => Pending srv w₀ c fresh s id challenge) fun _ => False :=
  fun _ hp => hp

theorem pending_tables : Triple (Pending srv w₀ c fresh s id challenge) tables
    (fun st w => Pending srv w₀ c fresh s id challenge w ∧ (st.session s).challenge = challenge)
    fun _ => False :=
  fun _ hp => ⟨hp, hp.challenge⟩

theorem pending_close (e : Status) : Triple (Pending srv w₀ c fresh s id challenge)
      (SmbServer.closeSession srv s >>= fun _ => throw e)
      (fun (r : Reply) w => End srv c m w₀ w ∧ r.closeSession = none) (End srv c m w₀) := by
  intro w hp
  rw [bind_of_eq_ok (closeSession_bare (hp.gated.bare s hp.plain))]
  refine ⟨⟨hp.log, ?_⟩, .inl (hp.untouched.trans (closeSession_untouched w.tables s w))⟩
  rcases hp.sole with rfl | rfl
  · exact hp.gated.calm (closeSession_calm _ s)
  · exact hp.gated.close_fresh

/-- After a command the gate stands, and a message that touched something, or has a session closed,
names an authenticated session. -/
def Concludes (srv : Server φ) (c : ConnRef) (m : Message) (w₀ : World φ) (x : Action φ Reply) :
    Prop :=
  Triple (Start w₀) x (fun r w => End srv c m w₀ w ∧
    ∀ s, r.closeSession = some s → ∃ s', Authenticated w₀ c m s') (End srv c m w₀)

theorem Ends.concludes {x} (h : Ends srv c m w₀ x) : Concludes srv c m w₀ x := by
  refine h.imp (fun _ hw => hw) (fun r w hw => ⟨hw.1, fun s hs => ?_⟩) fun _ hw => hw
  rw [hw.2] at hs
  cases hs

theorem concludes_ite {p : Prop} [Decidable p] {x y} (hx : p → Concludes srv c m w₀ x)
    (hy : Concludes srv c m w₀ y) : Concludes srv c m w₀ (if p then x else y) := by
  split
  · rename_i hp
    exact hx hp
  · exact hy

section Gate

variable (hg : Gated srv w₀.log none w₀.tables)
include hg

theorem Start.running {w} (h : Start w₀ w) : Running srv w₀.log w := by
  refine ⟨h.log, ?_⟩
  rw [h.tables]
  exact hg

theorem Start.ends {w} (h : Start w₀ w) : End srv c m w₀ w :=
  ⟨h.running hg, .inl h.untouched⟩

theorem ends_pure {r} (h : r.closeSession = none) : Ends srv c m w₀ (pure r) :=
  Triple.pure r fun _ hw => ⟨hw.ends hg, h⟩

theorem ends_throw (e : Status) : Ends srv c m w₀ (throw e) :=
  Triple.throw e fun _ hw => hw.ends hg

theorem ends_bind_start {x : Action φ α}
    {f : α → Action φ Reply} (hx : Keeps (Start w₀) x) (hf : ∀ a, Ends srv c m w₀ (f a)) :
    Ends srv c m w₀ (x >>= f) :=
  Triple.bind (hx.imp (fun _ hw => hw) (fun _ _ hw => hw) fun _ hw => hw.ends hg) hf

theorem ends_bind {x : Action φ α} {f : α → Action φ Reply}
    (hx : Reads x) (hf : ∀ a, Ends srv c m w₀ (f a)) : Ends srv c m w₀ (x >>= f) :=
  ends_bind_start hg hx.keeps hf

theorem ends_bind_reads {x : Action φ α} {f : α → Action φ Reply} (hx : Reads x)
    (hf : ∀ a w, Start w₀ w → x w = .ok a w → Ends srv c m w₀ (f a)) :
    Ends srv c m w₀ (x >>= f) :=
  Triple.bind (hx.triple.imp (fun _ hw => hw) (fun _ _ hw => hw) fun _ hw => hw.ends hg)
    fun a w hw => hf a w hw.1 hw.2 w hw.1

theorem ends_refuse {p : Prop} [Decidable p] {e f}
    (hf : Ends srv c m w₀ (f ())) : Ends srv c m w₀ (refuse p e >>= f) :=
  ends_bind hg (.refuse p e) fun _ => hf

theorem ends_require {o : Option α} {e : Status}
    {f : α → Action φ Reply} (hf : ∀ a, o = some a → Ends srv c m w₀ (f a)) :
    Ends srv c m w₀ (require o e >>= f) := by
  cases o with
  | none => exact ends_throw hg e
  | some a => exact hf a rfl

theorem ends_of_authenticated {s}
    (ha : Authenticated w₀ c m s) {x} (hx : Serves srv w₀.log x) : Ends srv c m w₀ x :=
  hx.imp (fun _ hw => hw.running hg) (fun _ _ hw => ⟨⟨hw.1, .inr ⟨s, ha⟩⟩, hw.2⟩)
    fun _ hw => ⟨hw, .inr ⟨s, ha⟩⟩

theorem ends_of_acting {s} (ha : Authenticated w₀ c m s) {x}
    (hx : Acts srv w₀.log s x) : Ends srv c m w₀ x := by
  refine hx.imp (fun w hw => ⟨hw.running hg, ?_⟩)
    (fun _ _ hw => ⟨⟨hw.1.1, .inr ⟨s, ha⟩⟩, hw.2⟩) fun _ hw => ⟨hw.1, .inr ⟨s, ha⟩⟩
  rw [hw.tables]
  exact ha.2

theorem ends_user {f}
    (hf : ∀ s, Authenticated w₀ c m s → Ends srv c m w₀ (f s)) :
    Ends srv c m w₀ (userSession c m >>= f) :=
  ends_bind_reads hg (reads_userSession c m) fun s _ hw hs =>
    hf s (hw.authenticated (userSession_eq_ok.1 hs).2)

theorem ends_tree {f}
    (hf : ∀ s, Authenticated w₀ c m s → Ends srv c m w₀ (f s)) :
    Ends srv c m w₀ (treeSession c m >>= f) :=
  ends_bind_reads hg (reads_treeSession c m) fun s _ hw hs =>
    hf s (hw.authenticated (treeSession_eq_ok.1 hs).2.1)

theorem ends_open {bodyOffset f}
    (hf : ∀ h, Addresses w₀ c m bodyOffset h → Ends srv c m w₀ (f h)) :
    Ends srv c m w₀ (openFor c m bodyOffset >>= f) :=
  ends_bind_reads hg (reads_openFor c m bodyOffset) fun h _ hw hh =>
    hf h ((openFor_eq_ok.1 hh).2.of_tables hw.tables.symm)

theorem ends_file {bodyOffset f}
    (hf : ∀ h, Serves srv w₀.log (f h)) : Ends srv c m w₀ (openFor c m bodyOffset >>= f) := by
  apply ends_open hg
  rintro h ⟨s, id, ha, -⟩
  exact ends_of_authenticated hg ha (hf h)

theorem ends_read : Ends srv c m w₀ (read srv c m) :=
  ends_refuse hg <| ends_refuse hg <| ends_refuse hg <| ends_file hg fun h =>
    serves_bind (reads_getHandle h).keeps fun _ => serves_bind (.refuse _ _) fun _ =>
    serves_bind (.refuse _ _) fun _ => serves_bind (reads_fileOf h).keeps fun _ =>
    serves_bind (running_call _) fun _ => serves_bind (.orThrow _) fun _ => serves_pure rfl

theorem ends_write : Ends srv c m w₀ (write srv c m) :=
  ends_refuse hg <| ends_refuse hg <| ends_refuse hg <| ends_bind hg (.require _ _) fun _ =>
    ends_file hg fun h =>
    serves_bind (reads_getHandle h).keeps fun _ => serves_bind (.refuse _ _) fun _ =>
    serves_bind (.refuse _ _) fun _ => serves_bind (reads_fileOf h).keeps fun f =>
    serves_bind (running_call _) fun _ => serves_bind (.orThrow _) fun _ =>
    serves_bind (Keeps.ite (running_syncFile f) (.pure ())) fun _ => serves_pure rfl

theorem ends_flush : Ends srv c m w₀ (flush srv c m) :=
  ends_refuse hg <| ends_file hg fun h => serves_bind (reads_fileOf h).keeps fun f =>
    serves_bind (running_syncFile f) fun _ => serves_pure rfl

theorem ends_lock : Ends srv c m w₀ (SmbServer.lock c m) :=
  ends_refuse hg <| ends_refuse hg <| ends_file hg fun h =>
    serves_bind (running_locked fun st => lock_calm st h _) fun _ =>
    serves_bind (.orThrow _) fun _ => serves_pure rfl

theorem ends_close : Ends srv c m w₀ (close srv c m) :=
  ends_refuse hg <| ends_file hg fun h => serves_bind (reads_fileOf h).keeps fun _ =>
    serves_bind (running_call _) fun _ => serves_bind (running_closeOpen h) fun r =>
    serves_bind (reads_fsOk r).keeps fun _ => serves_pure rfl

theorem ends_setInfo : Ends srv c m w₀ (setInfo srv c m) :=
  ends_refuse hg <| ends_bind hg (.require _ _) fun _ => ends_file hg fun h =>
    serves_bind (reads_getHandle h).keeps fun _ => serves_bind (running_setClass h _ _ _) fun _ =>
    serves_pure rfl

theorem ends_queryInfo : Ends srv c m w₀ (queryInfo srv c m) :=
  ends_refuse hg <| ends_file hg fun h => serves_ite (serves_queryInfoResponse _ _) <|
    serves_bind (reads_fileOf h).keeps fun _ => serves_bind (running_call _) fun r =>
    serves_bind (reads_fsOk r).keeps fun _ => serves_bind (reads_getHandle h).keeps fun _ =>
    serves_bind (running_infoData _ _ _ _) fun _ => serves_queryInfoResponse _ _

theorem ends_queryDirectory : Ends srv c m w₀ (queryDirectory srv c m) := by
  refine ends_refuse hg <| ends_refuse hg <| ends_open hg fun h hh => ?_
  obtain ⟨s, id, ha, -, -, hfound⟩ := hh
  have hs : (w₀.tables.handle h).session = s := (hg.owner s id h (handle_lookup hfound)).2
  refine ends_bind_reads hg (reads_getHandle h) fun r w hw hr => ?_
  obtain ⟨rfl, -⟩ := getHandle_eq_ok.1 hr
  have ha' : Authenticated w₀ c m (w.tables.handle h).session := by
    rw [hw.tables, hs]
    exact ha
  exact ends_of_acting hg ha' (acts_bind (.refuse _ _) fun _ => acts_bind (.require _ _) fun _ =>
    acts_listEntries _ _)

theorem ends_ioctl : Ends srv c m w₀ (ioctl srv c m) :=
  ends_refuse hg <| ends_refuse hg <| ends_user hg fun _ _ => ends_bind hg (.require _ _) fun _ =>
    ends_refuse hg <| ends_refuse hg <| ends_bind hg (reads_connection c) fun _ =>
    ends_refuse hg <| ends_pure hg rfl

theorem ends_echo : Ends srv c m w₀ (echo m) :=
  ends_refuse hg <| ends_pure hg rfl

theorem ends_create : Ends srv c m w₀ (create srv c m) :=
  ends_tree hg fun s ha => ends_of_acting hg ha <| acts_bind (.orThrow _) fun r =>
    acts_bind (acting_call s _) fun _ => acts_bind (.orThrow _) fun info =>
    acts_bind (.orThrow _) fun _ => acts_bind (acting_locked fun _ hs => addHandle_calm hs _)
    fun _ => acts_bind (.orThrow _) fun h =>
    acts_bind (acting_abortOnError h (acting_openReserved s r info h)) fun _ =>
    acts_bind reads_tables.keeps fun _ => acts_pure rfl

theorem ends_treeConnect : Ends srv c m w₀ (treeConnect srv c m) :=
  ends_user hg fun _ ha => ends_of_acting hg ha <| acts_bind (.refuse _ _) fun _ =>
    acts_bind (.require _ _) fun _ => acts_bind (.require _ _) fun _ =>
    acts_bind (.refuse _ _) fun _ => acts_bind (acting_locked fun _ hs => treeConnect_calm hs)
    fun _ => acts_bind (.require _ _) fun _ => acts_pure rfl

theorem ends_treeDisconnect : Ends srv c m w₀ (treeDisconnect srv c m) :=
  ends_user hg fun s ha => ends_of_authenticated hg ha <| serves_bind (.refuse _ _) fun _ =>
    serves_bind (running_locked fun st => treeDisconnect_calm st s _) fun _ =>
    serves_bind (.require _ _) fun hs => serves_bind (running_closeAll hs) fun _ => serves_pure rfl

theorem ends_negotiate : Ends srv c m w₀ (negotiate srv c env m) := by
  refine ends_refuse hg <| ends_refuse hg <| ends_refuse hg <| ends_bind hg (.require _ _) fun _ =>
    ends_refuse hg <| ends_bind hg ?_ fun _ => ends_bind_start hg (keeps_updateConn _) fun _ =>
    ends_pure hg rfl
  rw [agreeSigning]
  split
  · exact (Reads.refuse _ _).bind fun _ => (Reads.require _ _).bind fun _ =>
      (Reads.refuse _ _).bind fun _ => (Reads.require _ _).bind fun _ => .pure _
  · exact .pure _

theorem pending_newSession (c : ConnRef) (env : Env)
    {w} (hw : Start w₀ w) :
    match (newSession w.tables c env.draws).1 with
    | none => Start w₀ { w with tables := (newSession w.tables c env.draws).2 }
    | some s => ∃ id challenge, Pending srv w₀ c (some s) s id challenge
        { w with tables := (newSession w.tables c env.draws).2 } := by
  rcases newSession_cases w.tables c env.draws with h | ⟨id, -, -, h⟩
  · rw [h]
    exact hw
  rw [h]
  have hg' : Gated srv w.log none w.tables := by
    rw [hw.log, hw.tables]
    exact hg
  have hnew : (openSession w.tables id c).session w.tables.nextSession = newSessionRecord id c := by
    simp [openSession]
  refine ⟨id, _, hw.log, ?_, hw.untouched.trans (openSession_untouched hg' id), ?_, ?_, ?_, rfl,
    .inr rfl⟩
  · rw [← hw.log]
    exact gated_openSession hg' id c
  · change (w.tables.sessions.insert id w.tables.nextSession).lookup id = _
    rw [AList.lookup_insert]
  · change ((openSession w.tables id c).session w.tables.nextSession).conn = c
    rw [hnew]
    rfl
  · change ((openSession w.tables id c).session w.tables.nextSession).authenticated = false
    rw [hnew]
    rfl

theorem ends_beginSession
    (hd : ⟨c, m, env, session w₀.tables m.hdr.sessionID c⟩ ∈ w₀.log)
    (hcmd : m.hdr.command = cmdSessionSetup) (raw : Bool) :
    Ends srv c m w₀ (beginSession srv c env m raw) := by
  refine Triple.bind (Triple.refuse _ _ fun w hw => hw.ends hg) fun _ => ?_
  rintro w ⟨hw, hid⟩
  have hnew := pending_newSession hg c env hw
  rw [bind_of_eq_ok (locked_eq_ok.2 ⟨rfl, rfl⟩)]
  cases hmade : (newSession w.tables c env.draws).1 with
  | none =>
    rw [hmade] at hnew
    exact hnew.ends hg
  | some s =>
    rw [hmade] at hnew
    obtain ⟨id, unset, hp⟩ := hnew
    rw [require_bind_some]
    refine (?_ : Triple (Pending srv w₀ c (some s) s id unset) _ _ _) _ hp
    cases hch : env.challenge with
    | none => exact pending_close _
    | some challenge =>
      refine Triple.bind_safe pending_connection fun conn => Triple.bind_safe
        (pending_update fun q => ⟨⟨rfl, rfl, rfl, rfl⟩, rfl, rfl, rfl⟩) fun _ => ?_
      split
      · exact pending_close _
      refine Triple.bind_safe (pending_settle (m := m) (fun _ => ⟨rfl, rfl, rfl, rfl⟩) ?_ ?_)
        fun _ => ?_
      · intro q hq _
        exact ⟨_, hd, hq.symm, hcmd, not_not.1 hid, hch⟩
      · intro q _ _ hplain _ ha
        exact absurd (hplain.symm.trans ha) nofun
      · exact Triple.bind_safe (Q := fun _ => End srv c m w₀) (fun _ hw => hw) fun _ =>
          Triple.pure _ fun _ hw => ⟨hw, rfl⟩

theorem ends_finishSession
    (hd : ⟨c, m, env, session w₀.tables m.hdr.sessionID c⟩ ∈ w₀.log)
    (hcmd : m.hdr.command = cmdSessionSetup) {blob token} (hblob : setupBlob m = some blob)
    (htoken : ntlmToken blob = some token) (htype : ntlmType token = some 3) (raw : Bool) :
    Ends srv c m w₀ (finishSession srv c env m token raw) := by
  intro w hw
  refine (?_ : Triple (· = w) _ _ _) w rfl
  refine Triple.bind (Q := fun st u => u = w ∧ st = w.tables) (fun _ hu => ⟨hu, hu ▸ rfl⟩) ?_
  intro st
  refine Triple.bind (Triple.require _ _ ?_) fun s => Triple.bind (Triple.refuse _ _ ?_) ?_
  · rintro _ ⟨rfl, -⟩
    exact hw.ends hg
  · rintro _ ⟨⟨rfl, -⟩, -⟩
    exact hw.ends hg
  intro _
  rintro v ⟨⟨⟨rfl, rfl⟩, hs⟩, hfresh⟩
  rw [hw.tables] at hs
  obtain ⟨hlookup, hconn⟩ := session_eq_some.1 hs
  have hp : Pending srv w₀ c none s m.hdr.sessionID (v.tables.session s).challenge v := by
    refine ⟨hw.log, ?_, hw.untouched, ?_, ?_, ?_, rfl, .inl rfl⟩
    · rw [hw.tables]
      exact hg
    · rw [hw.tables]
      exact hlookup
    · rw [hw.tables]
      exact hconn
    · simpa using fun h => hfresh (.inl h)
  refine (?_ : Triple (Pending srv w₀ c none s m.hdr.sessionID _) _ _ _) v hp
  refine Triple.bind_safe (pending_update fun q => ⟨⟨rfl, rfl, rfl, rfl⟩, rfl, rfl, rfl⟩) fun _ =>
    Triple.bind_safe pending_tables fun st => ?_
  rintro u ⟨hu, hch⟩
  refine (?_ : Triple (Pending srv w₀ c none s m.hdr.sessionID _) _ _ _) u hu
  refine Triple.bind_safe pending_connection fun conn => ?_
  split
  · exact pending_close _
  rename_i result hresult
  rw [hch] at hresult
  refine Triple.bind_safe (pending_settle (m := m) (fun _ => ⟨rfl, rfl, rfl, rfl⟩) ?_ ?_)
    fun _ => Triple.pure _ fun _ hw => ⟨hw, rfl⟩
  · rintro q hq (hi | hf)
    · exact hi
    · cases hf
  · intro q hq hid _ hqc _
    refine ⟨_, hd, hq.symm, hs, hcmd, hid.symm, blob, token, result, hblob, htoken, htype, ?_⟩
    rw [← hqc] at hresult
    exact hresult

theorem ends_sessionSetup
    (hd : ⟨c, m, env, session w₀.tables m.hdr.sessionID c⟩ ∈ w₀.log)
    (hcmd : m.hdr.command = cmdSessionSetup) : Ends srv c m w₀ (sessionSetup srv c env m) := by
  refine ends_require hg fun blob hblob => ends_require hg fun token htoken =>
    ends_require hg fun typ htype => ?_
  simp only
  split
  · exact ends_beginSession hg hd hcmd _
  split
  · rename_i h3
    subst h3
    exact ends_finishSession hg hd hcmd hblob htoken htype _
  · exact ends_throw hg _

theorem concludes_logoff : Concludes srv c m w₀ (logoff c m) := by
  refine Triple.bind ((reads_userSession c m).triple.imp (fun _ hw => hw) (fun _ _ hw => hw)
    fun _ hw => hw.ends hg) fun s => ?_
  rintro w ⟨hw, hs⟩
  have ha := hw.authenticated (userSession_eq_ok.1 hs).2
  refine (?_ : Triple (Start w₀) _ _ _) w hw
  exact Triple.bind (Keeps.refuse _ _ |>.imp (fun _ hw => hw) (fun _ _ hw => hw)
    fun _ hw => hw.ends hg) fun _ => Triple.pure _ fun _ hw => ⟨hw.ends hg, fun _ _ => ⟨s, ha⟩⟩

theorem concludes_command
    (hd : ⟨c, m, env, session w₀.tables m.hdr.sessionID c⟩ ∈ w₀.log) :
    Concludes srv c m w₀ (command srv c env m) := by
  refine concludes_ite (fun _ => (ends_echo hg).concludes) ?_
  refine concludes_ite (fun _ => (ends_pure hg rfl).concludes) ?_
  refine concludes_ite (fun hcmd => (ends_sessionSetup hg hd hcmd).concludes) ?_
  refine concludes_ite (fun _ => concludes_logoff hg) ?_
  refine concludes_ite (fun _ => (ends_treeConnect hg).concludes) ?_
  refine concludes_ite (fun _ => (ends_treeDisconnect hg).concludes) ?_
  refine concludes_ite (fun _ => (ends_create hg).concludes) ?_
  refine concludes_ite (fun _ => (ends_close hg).concludes) ?_
  refine concludes_ite (fun _ => (ends_flush hg).concludes) ?_
  refine concludes_ite (fun _ => (ends_read hg).concludes) ?_
  refine concludes_ite (fun _ => (ends_write hg).concludes) ?_
  refine concludes_ite (fun _ => (ends_lock hg).concludes) ?_
  refine concludes_ite (fun _ => (ends_queryDirectory hg).concludes) ?_
  refine concludes_ite (fun _ => (ends_queryInfo hg).concludes) ?_
  refine concludes_ite (fun _ => (ends_setInfo hg).concludes) ?_
  refine concludes_ite (fun _ => (ends_ioctl hg).concludes) ?_
  exact (ends_throw hg _).concludes

theorem concludes_dispatch (env : Env)
    (hd : ⟨c, m, env, session w₀.tables m.hdr.sessionID c⟩ ∈ w₀.log) :
    Concludes srv c m w₀ (dispatch srv c env m) := by
  refine Triple.bind (Triple.refuse _ _ fun _ hw => hw.ends hg) fun _ => ?_
  refine Triple.bind (Q := fun _ => Start w₀) (fun _ hw => hw.1) fun conn => concludes_ite ?_ ?_
  · intro _
    exact (ends_bind_start hg (keeps_updateConn _) fun _ => ends_refuse hg
      (ends_negotiate hg)).concludes
  · exact Triple.bind (Keeps.refuse _ _ |>.imp (fun _ hw => hw) (fun _ _ hw => hw)
      fun _ hw => hw.ends hg) fun _ => concludes_command hg hd

end Gate

end Commands

end SmbAuthority
