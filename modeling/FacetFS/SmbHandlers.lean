import FacetFS.SmbServer

/-! # What the commands of the SMB server do when they succeed

The lookups that a command starts with read the state and leave it as it is. Each lemma says when
the step succeeds and with what. -/
namespace SmbHandlers

open SmbState SmbWire SmbServer EffectTriple

variable {φ α : Type} {w w' : World φ} {c : ConnRef} {m : Message}

theorem call_eq_ok {f : φ → α × φ} {a : α} : call f w = .ok a w' ↔
      a = (f w.fs).1 ∧ w' = { w with fs := (f w.fs).2, calls := w.calls + 1 } := by
  rw [call]
  constructor
  · intro h
    cases h
    exact ⟨rfl, rfl⟩
  · rintro ⟨rfl, rfl⟩
    rfl

theorem locked_eq_ok {f : State → α × State} {a : α} :
    locked f w = .ok a w' ↔ a = (f w.tables).1 ∧ w' = { w with tables := (f w.tables).2 } := by
  rw [locked]
  constructor
  · intro h
    cases h
    exact ⟨rfl, rfl⟩
  · rintro ⟨rfl, rfl⟩
    rfl

theorem tables_eq_ok {st} : tables w = .ok st w' ↔ st = w.tables ∧ w' = w := by
  rw [tables]
  constructor
  · intro h
    cases h
    exact ⟨rfl, rfl⟩
  · rintro ⟨rfl, rfl⟩
    rfl

variable {h : HandleRef}

theorem getHandle_eq_ok {r} : getHandle h w = .ok r w' ↔ r = w.tables.handle h ∧ w' = w := by
  rw [getHandle]
  constructor
  · intro e
    cases e
    exact ⟨rfl, rfl⟩
  · rintro ⟨rfl, rfl⟩
    rfl

/-- The session a message names on its connection, once it is authenticated. -/
def Authenticated (w : World φ) (c : ConnRef) (m : Message) (s : SessionRef) : Prop :=
  session w.tables m.hdr.sessionID c = some s ∧ (w.tables.session s).authenticated = true

/-- The open handle a message names, with the id at an offset of its body. -/
def Addresses (w : World φ) (c : ConnRef) (m : Message) (bodyOffset : ℕ) (h : HandleRef) : Prop :=
  ∃ s id, Authenticated w c m s ∧ m.hdr.treeID ∈ (w.tables.session s).trees ∧
    requestFileID m bodyOffset = some id ∧ handle w.tables s m.hdr.treeID id = some h

variable {s : SessionRef}

theorem session_eq_some {st id} :
    session st id c = some s ↔ st.sessions.lookup id = some s ∧ (st.session s).conn = c := by
  rw [session]
  cases st.sessions.lookup id with
  | none => simp
  | some t =>
    by_cases hc : (st.session t).conn = c
    · simp only [if_pos hc, Option.some.injEq]
      exact ⟨fun h => ⟨h, h ▸ hc⟩, fun h => h.1⟩
    · simp only [if_neg hc, Option.some.injEq]
      exact ⟨nofun, fun h => absurd (h.1 ▸ h.2) hc⟩

theorem handle_lookup {st treeID id}
    (hh : handle st s treeID id = some h) : (st.session s).handles.lookup id = some h := by
  rw [handle] at hh
  split at hh
  · cases hh
  rename_i k hk
  split at hh
  · cases hh
  · rw [hk, ← hh]

theorem Addresses.unique {bodyOffset k} (hh : Addresses w c m bodyOffset h)
    (hk : Addresses w c m bodyOffset k) : h = k := by
  obtain ⟨s, id, ⟨hs, -⟩, -, hid, hh⟩ := hh
  obtain ⟨s', id', ⟨hs', -⟩, -, hid', hk⟩ := hk
  obtain rfl := Option.some.inj (hs.symm.trans hs')
  obtain rfl := Option.some.inj (hid.symm.trans hid')
  exact Option.some.inj (hh.symm.trans hk)

theorem Addresses.of_tables {bodyOffset} (hh : Addresses w c m bodyOffset h)
    (ht : w'.tables = w.tables) : Addresses w' c m bodyOffset h := by
  simp only [Addresses, Authenticated, ht]
  exact hh

theorem authSession_run (w : World φ) (c : ConnRef) (m : Message) :
    authSession c m w = .ok ((session w.tables m.hdr.sessionID c).filter
      fun s => (w.tables.session s).authenticated) w := by
  simp only [authSession, bind, EStateM.bind, tables]
  cases session w.tables m.hdr.sessionID c with
  | none => rfl
  | some s =>
    cases hauth : (w.tables.session s).authenticated with
    | false => simp [Option.filter, hauth]; rfl
    | true => simp [Option.filter, hauth]; rfl

theorem userSession_eq_ok : userSession c m w = .ok s w' ↔ w' = w ∧ Authenticated w c m s := by
  rw [userSession, bind_eq_ok]
  constructor
  · rintro ⟨r, u, ha, hr⟩
    rw [authSession_run] at ha
    cases ha
    obtain ⟨hs, rfl⟩ := require_eq_ok.1 hr
    exact ⟨rfl, Option.filter_eq_some_iff.1 hs⟩
  · rintro ⟨rfl, hs⟩
    exact ⟨_, w', authSession_run w' c m, require_eq_ok.2 ⟨Option.filter_eq_some_iff.2 hs, rfl⟩⟩

theorem treeSession_eq_ok : treeSession c m w = .ok s w' ↔
      w' = w ∧ Authenticated w c m s ∧ m.hdr.treeID ∈ (w.tables.session s).trees := by
  simp only [treeSession, bind_eq_ok, userSession_eq_ok, tables_eq_ok, refuse_eq_ok, pure_eq_ok,
    not_not]
  constructor
  · rintro ⟨_, _, ⟨rfl, ha⟩, _, _, ⟨rfl, rfl⟩, _, _, ⟨ht, rfl⟩, rfl, rfl⟩
    exact ⟨rfl, ha, ht⟩
  · rintro ⟨rfl, ha, ht⟩
    exact ⟨_, _, ⟨rfl, ha⟩, _, _, ⟨rfl, rfl⟩, (), _, ⟨ht, rfl⟩, rfl, rfl⟩

theorem openFor_eq_ok {bodyOffset} :
    openFor c m bodyOffset w = .ok h w' ↔ w' = w ∧ Addresses w c m bodyOffset h := by
  simp only [openFor, bind_eq_ok, treeSession_eq_ok, tables_eq_ok, require_eq_ok, Addresses]
  constructor
  · rintro ⟨s, _, ⟨rfl, ha, ht⟩, id, _, ⟨hid, rfl⟩, _, _, ⟨rfl, rfl⟩, hh, rfl⟩
    exact ⟨rfl, s, id, ha, ht, hid, hh⟩
  · rintro ⟨rfl, s, id, ha, ht, hid, hh⟩
    exact ⟨s, _, ⟨rfl, ha, ht⟩, id, _, ⟨hid, rfl⟩, _, _, ⟨rfl, rfl⟩, hh, rfl⟩

theorem fsOk_eq_ok {r a} : (fsOk r : Action φ α) w = .ok a w' ↔ r = .ok a ∧ w' = w := by
  cases r with
  | error e => simp [fsOk, throw_ne_ok]
  | ok b => simp [fsOk, pure_eq_ok, eq_comm]

section Reading

theorem reads_tables : Reads (tables : Action φ State) := fun _ => rfl

theorem reads_getHandle (h : HandleRef) : Reads (getHandle h : Action φ OpenHandle) := fun _ => rfl

theorem reads_connection (c : ConnRef) : Reads (connection c : Action φ Conn) := fun _ => rfl

theorem reads_fsOk (r : Except FsError α) : Reads (fsOk r : Action φ α) := by
  cases r with
  | error e => exact .throw _
  | ok a => exact .pure a

theorem reads_userSession (c : ConnRef) (m : Message) :
    Reads (userSession c m : Action φ SessionRef) := by
  apply Reads.bind
  · intro w
    rw [authSession_run]
    rfl
  · intro s
    exact .require s _

theorem reads_treeSession (c : ConnRef) (m : Message) :
    Reads (treeSession c m : Action φ SessionRef) :=
  (reads_userSession c m).bind fun _ => reads_tables.bind fun _ =>
    (Reads.refuse _ _).bind fun _ => .pure _

theorem reads_openFor (c : ConnRef) (m : Message) (bodyOffset : ℕ) :
    Reads (openFor c m bodyOffset : Action φ HandleRef) :=
  (reads_treeSession c m).bind fun _ => (Reads.require _ _).bind fun _ =>
    reads_tables.bind fun _ => .require _ _

theorem reads_fileOf (h : HandleRef) : Reads (fileOf h : Action φ FileRef) :=
  (reads_getHandle h).bind fun _ => .require _ _

end Reading

section Rename

variable {srv : Server φ}

def infoBuffer (srv : Server φ) (m : Message) : Option Bytes :=
  m.slice (LittleEndian.uint16 m.body 8).toNat (LittleEndian.uint32 m.body 4).toNat srv.maxTransact

theorem refuseExisting_tables {data newName u}
    (h : refuseExisting srv data newName w = .ok u w') : w'.tables = w.tables := by
  rw [refuseExisting] at h
  split at h
  · simp only [bind_eq_ok, call_eq_ok, refuse_eq_ok] at h
    obtain ⟨_, _, ⟨rfl, rfl⟩, -, rfl⟩ := h
    rfl
  · obtain ⟨-, rfl⟩ := pure_eq_ok.1 h
    rfl

theorem setRename_tables {r data u} (h : setRename srv r data w = .ok u w') :
    ∃ newName, renameTarget srv data = .ok newName ∧
      w'.tables = renameOpens w.tables r.path newName := by
  simp only [setRename, bind_eq_ok, refuse_eq_ok, orThrow_eq_ok, call_eq_ok, fsOk_eq_ok,
    locked_eq_ok] at h
  obtain ⟨_, _, ⟨-, rfl⟩, newName, _, ⟨ht, rfl⟩, _, u, he, _, _, ⟨rfl, rfl⟩, _, _, ⟨-, rfl⟩, -,
    rfl⟩ := h
  refine ⟨newName, ht, ?_⟩
  rw [← refuseExisting_tables he]

theorem setInfo_eq_ok {reply} (h : setInfo srv c m w = .ok reply w') :
    ∃ data k, infoBuffer srv m = some data ∧ Addresses w c m 16 k ∧
      setClass srv k (w.tables.handle k) (m.body.getD 3 0) data w = .ok () w' := by
  simp only [setInfo, bind_eq_ok, refuse_eq_ok, require_eq_ok, openFor_eq_ok, getHandle_eq_ok,
    pure_eq_ok] at h
  obtain ⟨_, _, ⟨-, rfl⟩, data, _, ⟨hd, rfl⟩, k, _, ⟨rfl, hk⟩, _, _, ⟨rfl, rfl⟩, ⟨⟩, _, hc, rfl,
    rfl⟩ := h
  exact ⟨data, k, hd, hk, hc⟩

end Rename

section Dispatch

variable {srv : Server φ} {env : Env}

theorem command_read (h : m.hdr.command = cmdRead) : command srv c env m = read srv c m := by
  rw [command, h]
  rfl

theorem command_write (h : m.hdr.command = cmdWrite) : command srv c env m = write srv c m := by
  rw [command, h]
  rfl

theorem command_flush (h : m.hdr.command = cmdFlush) : command srv c env m = flush srv c m := by
  rw [command, h]
  rfl

theorem command_lock (h : m.hdr.command = cmdLock) : command srv c env m = SmbServer.lock c m := by
  rw [command, h]
  rfl

theorem command_close (h : m.hdr.command = cmdClose) : command srv c env m = close srv c m := by
  rw [command, h]
  rfl

theorem command_setInfo (h : m.hdr.command = cmdSetInfo) :
    command srv c env m = setInfo srv c m := by
  rw [command, h]
  rfl

theorem dispatch_run (hc : m.hdr.command < cmdCount)
    (hn : m.hdr.command ≠ SmbCreditRun.cmdNegotiate) (w : World φ) :
    dispatch srv c env m w =
      if (w.conn c).dialect = 0 then .error .invalidParameter w else command srv c env m w := by
  rw [dispatch, refuse_bind_neg (UInt16.not_le.2 hc)]
  change (if m.hdr.command = SmbCreditRun.cmdNegotiate then _ else _ : Action φ Reply) w = _
  rw [if_neg hn]
  by_cases hd : (w.conn c).dialect = 0
  · rw [if_pos hd, refuse_bind_pos hd]
  · rw [if_neg hd, refuse_bind_neg hd]

end Dispatch

end SmbHandlers
