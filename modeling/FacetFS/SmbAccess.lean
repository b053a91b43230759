import FacetFS.SmbDisk

/-! # What a handle without write access can change

The content of a file is the bytes of its object, so renames and removed names do not count. Under
the laws of a file system whose metadata calls leave content alone, a message addressed to a handle
without write access changes no content, with one exception: SET_INFO with the end-of-file class
truncates by path and does not look at the access of the handle. -/
namespace SmbAccess

open SmbState SmbSections SmbWire SmbResponse SmbServer SmbHandlers EffectTriple EventSystem
open LittleEndian

variable {φ Obj : Type}

/-- The calls that must not change the content of a file. -/
structure Lawful (fs : FileSystem φ) (content : φ → Obj → Bytes) : Prop where
  stat : ∀ p s, content (fs.stat p s).2 = content s
  rename : ∀ p q s, content (fs.rename p q s).2 = content s
  chmod : ∀ setfs ∈ fs.setStat, ∀ p mode s, content (setfs.chmod p mode s).2 = content s
  chtimes : ∀ setfs ∈ fs.setStat, ∀ p a t s, content (setfs.chtimes p a t s).2 = content s
  fileStat : ∀ f s, content (fs.fileStat f s).2 = content s
  readAt : ∀ f off n s, content (fs.readAt f off n s).2 = content s
  sync : ∀ f, ∀ sync ∈ fs.sync f, ∀ s, content (sync s).2 = content s
  close : ∀ f s, content (fs.close f s) = content s

section Calls

variable {srv : Server φ} {content : φ → Obj → Bytes} {b : Obj → Bytes}
variable {α : Type} (law : Lawful srv.fs content) (f : FileRef) (c : ConnRef) (m : Message)
    (h : HandleRef) (r : OpenHandle) (data : Bytes)

def Holds (content : φ → Obj → Bytes) (b : Obj → Bytes) (w : World φ) : Prop := content w.fs = b

theorem holds_call {f : φ → α × φ} (h : ∀ s, content (f s).2 = content s) :
    Keeps (Holds content b) (call f) := by
  intro w hw
  exact (h w.fs).trans hw

theorem holds_locked (f : State → α × State) : Keeps (Holds content b) (locked f) := fun _ hw => hw

theorem holds_lock : Keeps (Holds content b) (SmbServer.lock c m) :=
  (Keeps.refuse _ _).bind fun _ => (Keeps.refuse _ _).bind fun _ =>
    (reads_openFor c m 8).keeps.bind fun _ => (holds_locked _).bind fun _ =>
    (Keeps.orThrow _).bind fun _ => .pure _

theorem holds_setDispositionInfo : Keeps (Holds content b) (setDispositionInfo srv h r data) :=
  (Keeps.refuse _ _).bind fun _ => (Keeps.refuse _ _).bind fun _ => (Keeps.refuse _ _).bind fun _ =>
    holds_locked _

include law

theorem holds_closeFile : Keeps (Holds content b) (closeFile srv f) :=
  holds_call fun s => law.close f s

theorem holds_closeHandle : Keeps (Holds content b) (closeHandle srv h) := by
  refine (reads_getHandle h).keeps.bind fun r => (holds_locked _).bind fun _ => ?_
  cases r.file with
  | none => exact .pure ()
  | some f => exact holds_closeFile law f

theorem holds_syncFile : Keeps (Holds content b) (syncFile srv f) := by
  rw [syncFile]
  split
  · rename_i sync hs
    exact (holds_call (law.sync f sync hs)).bind fun r => (reads_fsOk r).keeps
  · exact .pure ()

theorem holds_read : Keeps (Holds content b) (read srv c m) := by
  refine (Keeps.refuse _ _).bind fun _ => (Keeps.refuse _ _).bind fun _ =>
    (Keeps.refuse _ _).bind fun _ => (reads_openFor c m 16).keeps.bind fun h =>
    (reads_getHandle h).keeps.bind fun r => (Keeps.refuse _ _).bind fun _ =>
    (Keeps.refuse _ _).bind fun _ => (reads_fileOf h).keeps.bind fun f => ?_
  exact (holds_call (law.readAt f _ _)).bind fun got => (Keeps.orThrow _).bind fun _ => .pure _

theorem holds_flush : Keeps (Holds content b) (flush srv c m) :=
  (Keeps.refuse _ _).bind fun _ => (reads_openFor c m 8).keeps.bind fun h =>
    (reads_fileOf h).keeps.bind fun f => (holds_syncFile law f).bind fun _ => .pure _

theorem holds_setBasicInfo : Keeps (Holds content b) (setBasicInfo srv r data) := by
  apply Keeps.require_bind
  intro setfs hs
  have hset : setfs ∈ srv.fs.setStat := by
    split at hs
    · cases hs
    · exact hs
  refine (holds_call (law.chtimes setfs hset _ _ _)).bind fun r => (reads_fsOk r).keeps.bind
    fun _ => Keeps.ite (.pure ()) ?_
  exact (holds_call (law.chmod setfs hset _ _)).bind fun r => (reads_fsOk r).keeps

theorem holds_setRename : Keeps (Holds content b) (setRename srv r data) := by
  refine (Keeps.refuse _ _).bind fun _ => (Keeps.orThrow _).bind fun newName => Keeps.bind ?_
    fun _ => (holds_call (law.rename _ newName)).bind fun r => (reads_fsOk r).keeps.bind fun _ =>
    holds_locked _
  exact Keeps.ite ((holds_call (law.stat newName)).bind fun _ => .refuse _ _) (.pure ())

theorem holds_setClass {cls}
    (hcls : cls ≠ 20) (data : Bytes) : Keeps (Holds content b) (setClass srv h r cls data) := by
  rw [setClass, if_neg hcls]
  exact Keeps.ite (holds_setBasicInfo law r data) (Keeps.ite (holds_setRename law r data)
    (Keeps.ite (holds_setDispositionInfo h r data) (.throw _)))

theorem holds_closeOpen :
    Triple (fun w => Holds content b w ∧ (w.tables.handle h).deleteOnClose = false)
      (closeOpen srv h) (fun _ => Holds content b) (Holds content b) := by
  refine Triple.bind (((reads_getHandle h).triple).imp (fun _ hw => hw) (fun _ _ hw => hw)
    fun _ hw => hw.1) fun r => ?_
  rintro w ⟨⟨hb, hd⟩, hr⟩
  obtain ⟨rfl, -⟩ := getHandle_eq_ok.1 hr
  refine (Keeps.bind (holds_closeHandle law h) fun _ => ?_) w hb
  rw [hd, if_neg Bool.false_ne_true]
  exact .pure _

end Calls

section Messages

/-- Where the commands on an open file have the file id. -/
def fileIDOffset (command : UInt16) : Option ℕ :=
  if command = cmdRead ∨ command = cmdWrite ∨ command = cmdSetInfo then some 16
  else if command = cmdLock ∨ command = cmdFlush ∨ command = cmdClose then some 8
  else none

def Addressed (w : World φ) (c : ConnRef) (m : Message) (h : HandleRef) : Prop :=
  ∃ off, fileIDOffset m.hdr.command = some off ∧ Addresses w c m off h

/-- The data of a SET_INFO, once the message passed the check of its fixed part. -/
def checkedBuffer (srv : Server φ) (m : Message) : Option Bytes :=
  if m.body.length < 32 ∨ uint16 m.body 0 ≠ 33 ∨ m.body.getD 2 0 ≠ infoFile then none
  else infoBuffer srv m

/-- Setting the end of a file to the size in the data is carried out and changes a file. -/
def Cuts (srv : Server φ) (content : φ → Obj → Bytes) (fs : φ) (p : Path) (data : Bytes) : Prop :=
  8 ≤ data.length ∧ (uint64 data 0).toNat ≤ maxInt64 ∧
    ∃ setfs, srv.fs.setStat = some setfs ∧
      content (setfs.truncate p (uint64 data 0).toNat fs).2 ≠ content fs

/-- The message is a SET_INFO of the end-of-file class that changes a file. -/
structure Truncates (srv : Server φ) (content : φ → Obj → Bytes) (w : World φ) (c : ConnRef)
    (m : Message) (h : HandleRef) : Prop where
  ready : (w.conn c).dialect ≠ 0
  command : m.hdr.command = cmdSetInfo
  cls : m.body.getD 3 0 = 20
  cuts : ∃ data, checkedBuffer srv m = some data ∧ Cuts srv content w.fs (w.tables.handle h).path data

variable {srv : Server φ} {content : φ → Obj → Bytes} {w : World φ} {c : ConnRef} {env : Env}
  {m : Message} {h : HandleRef}

theorem write_refuses (hm : Addresses w c m 16 h)
    (hro : (accessKinds (w.tables.handle h).access).2.1 = false) : Refuses (write srv c m) w := by
  refine .refuse_bind fun _ => .refuse_bind fun _ => .refuse_bind fun _ => .require_bind
    fun data _ => .bind_ok (openFor_eq_ok.2 ⟨rfl, hm⟩) ?_
  refine .bind_ok (getHandle_eq_ok.2 ⟨rfl, rfl⟩) (.refuse_bind fun _ => .refuse_bind fun hw => ?_)
  exact absurd hro (by simpa using hw)

theorem close_content (law : Lawful srv.fs content) (hm : Addresses w c m 8 h)
    (hd : (w.tables.handle h).deleteOnClose = false) :
    content (finalState (close srv c m w)).fs = content w.fs := by
  -- up to the close itself the tables stay as they are
  let P : World φ → Prop := fun u => Holds content (content w.fs) u ∧ u.tables = w.tables
  have hfound : Triple P (openFor c m 8) (fun k u => P u ∧ k = h) (Holds content (content w.fs)) := by
    refine (reads_openFor c m 8).triple.imp (fun _ hu => hu) ?_ fun _ hu => hu.1
    rintro k u ⟨hu, hk⟩
    obtain ⟨-, hk⟩ := openFor_eq_ok.1 hk
    exact ⟨hu, (hk.of_tables hu.2.symm).unique hm⟩
  have hrest : Triple P (fileOf h >>= fun f => call (srv.fs.fileStat f) >>= fun info =>
      closeOpen srv h >>= fun closed => fsOk closed >>= fun _ => pure (ok (closeResponse
        (if uint16 m.body 2 &&& 1 ≠ 0 then info.toOption else none))))
      (fun _ => Holds content (content w.fs)) (Holds content (content w.fs)) := by
    refine Triple.bind ((reads_fileOf h).keeps.imp (fun _ hu => hu) (fun _ _ hu => hu)
      fun _ hu => hu.1) fun f => ?_
    have hstat : Triple P (call (srv.fs.fileStat f)) (fun _ => P) (Holds content (content w.fs)) :=
      fun u hu => ⟨(law.fileStat f u.fs).trans hu.1, hu.2⟩
    refine hstat.bind fun info => Triple.bind ((holds_closeOpen law h).imp ?_ (fun _ _ hu => hu)
      fun _ hu => hu) fun closed => (reads_fsOk closed).keeps.bind fun _ => .pure _
    rintro u ⟨hb, ht⟩
    exact ⟨hb, by rw [ht, hd]⟩
  have hclose : Triple P (close srv c m) (fun _ => Holds content (content w.fs))
      (Holds content (content w.fs)) := by
    refine Triple.bind ((Keeps.refuse _ _).imp (fun _ hu => hu) (fun _ _ hu => hu) fun _ hu => hu.1)
      fun _ => hfound.bind fun k => ?_
    rintro u ⟨hu, rfl⟩
    exact hrest u hu
  exact hclose.finalState (s := w) ⟨rfl, rfl⟩

theorem setInfo_content (law : Lawful srv.fs content) (hcls : m.body.getD 3 0 ≠ 20) :
    content (finalState (setInfo srv c m w)).fs = content w.fs := by
  have hk : Keeps (Holds content (content w.fs)) (setInfo srv c m) :=
    (Keeps.refuse _ _).bind fun _ => (Keeps.require _ _).bind fun data =>
      (reads_openFor c m 16).keeps.bind fun k => (reads_getHandle k).keeps.bind fun r =>
      (holds_setClass law k r hcls data).bind fun _ => .pure _
  exact hk.finalState (s := w) rfl

theorem setInfo_run (hm : Addresses w c m 16 h) : finalState (setInfo srv c m w) =
      match checkedBuffer srv m with
      | none => w
      | some data =>
        finalState (setClass srv h (w.tables.handle h) (m.body.getD 3 0) data w) := by
  rw [setInfo, checkedBuffer]
  split_ifs with hs
  · rw [refuse_bind_pos hs]
    rfl
  rw [refuse_bind_neg hs]
  change finalState ((require (infoBuffer srv m) .invalidParameter >>= _ : Action φ Reply) w) = _
  cases infoBuffer srv m with
  | none => rfl
  | some data =>
    rw [require_bind_some, bind_of_eq_ok (openFor_eq_ok.2 ⟨rfl, hm⟩),
      bind_of_eq_ok (getHandle_eq_ok.2 ⟨rfl, rfl⟩)]
    exact finalState_bind_pure _ _

theorem setEndOfFile_content (r : OpenHandle) (data : Bytes) :
    content (finalState (setEndOfFile srv r data w)).fs = content w.fs ↔
      ¬ Cuts srv content w.fs r.path data := by
  rw [setEndOfFile, Cuts]
  by_cases hlen : data.length < 8
  · rw [if_pos hlen, require_bind_none]
    simp [finalState, Nat.not_le.2 hlen]
  rw [if_neg hlen]
  cases hset : srv.fs.setStat with
  | none =>
    rw [require_bind_none]
    simp [finalState]
  | some setfs =>
    rw [require_bind_some]
    by_cases hsize : (uint64 data 0).toNat > maxInt64
    · rw [refuse_bind_pos hsize]
      simp [finalState, Nat.not_le.2 hsize]
    · rw [refuse_bind_neg hsize, bind_of_eq_ok (call_eq_ok.2 ⟨rfl, rfl⟩), reads_fsOk]
      simp [Nat.not_lt.1 hlen, Nat.not_lt.1 hsize]

theorem setInfo_endOfFile_content (hm : Addresses w c m 16 h) (hcls : m.body.getD 3 0 = 20) :
    content (finalState (setInfo srv c m w)).fs = content w.fs ↔
      ¬ ∃ data, checkedBuffer srv m = some data ∧
        Cuts srv content w.fs (w.tables.handle h).path data := by
  rw [setInfo_run hm, hcls]
  cases checkedBuffer srv m with
  | none => simp
  | some data =>
    change content (finalState (setEndOfFile srv (w.tables.handle h) data w)).fs = _ ↔ _
    rw [setEndOfFile_content]
    simp

theorem command_content (law : Lawful srv.fs content) (hm : Addressed w c m h)
    (hro : (accessKinds (w.tables.handle h).access).2.1 = false)
    (hd : m.hdr.command = cmdClose → (w.tables.handle h).deleteOnClose = false)
    (hne : ¬ (m.hdr.command = cmdSetInfo ∧ m.body.getD 3 0 = 20)) :
    content (finalState (command srv c env m w)).fs = content w.fs := by
  obtain ⟨off, hoff, hm⟩ := hm
  rw [fileIDOffset] at hoff
  split_ifs at hoff with h16 h8
  · cases hoff
    rcases h16 with hc | hc | hc
    · rw [command_read hc]
      exact (holds_read law c m).finalState (s := w) rfl
    · rw [command_write hc, (write_refuses hm hro).finalState]
    · rw [command_setInfo hc]
      exact setInfo_content law fun hcls => hne ⟨hc, hcls⟩
  cases hoff
  rcases h8 with hc | hc | hc
  · rw [command_lock hc]
    exact (holds_lock c m).finalState (s := w) rfl
  · rw [command_flush hc]
    exact (holds_flush law c m).finalState (s := w) rfl
  · rw [command_close hc]
    exact close_content law hm (hd hc)

theorem fileIDOffset_lt {command off} (h : fileIDOffset command = some off) :
    command < cmdCount ∧ command ≠ SmbCreditRun.cmdNegotiate := by
  rw [fileIDOffset] at h
  split_ifs at h with h16 h8
  · rcases h16 with rfl | rfl | rfl <;> decide
  · rcases h8 with rfl | rfl | rfl <;> decide

/-- A message addressed to a handle without write access changes the content of a file only as a
SET_INFO of the end-of-file class. -/
theorem readonly_content_iff (srv : Server φ) (content : φ → Obj → Bytes)
    (law : Lawful srv.fs content) (w : World φ) (c : ConnRef) (env : Env) (m : Message)
    (h : HandleRef) (hm : Addressed w c m h)
    (hro : (accessKinds (w.tables.handle h).access).2.1 = false)
    (hd : m.hdr.command = cmdClose → (w.tables.handle h).deleteOnClose = false) :
    content (finalState (dispatch srv c env m w)).fs = content w.fs ↔
      ¬ Truncates srv content w c m h := by
  obtain ⟨off, hoff, ha⟩ := hm
  obtain ⟨hlt, hneg⟩ := fileIDOffset_lt hoff
  rw [dispatch_run hlt hneg]
  by_cases hready : (w.conn c).dialect = 0
  · rw [if_pos hready]
    exact iff_of_true rfl fun ht => ht.ready hready
  rw [if_neg hready]
  by_cases hset : m.hdr.command = cmdSetInfo ∧ m.body.getD 3 0 = 20
  · obtain ⟨hc, hcls⟩ := hset
    have h16 : off = 16 := by
      rw [hc] at hoff
      exact (Option.some.inj hoff).symm
    subst h16
    rw [command_setInfo hc, setInfo_endOfFile_content ha hcls]
    exact not_congr ⟨fun hcut => ⟨hready, hc, hcls, hcut⟩, fun ht => ht.cuts⟩
  · refine iff_of_true (command_content law ⟨off, hoff, ha⟩ hro hd hset) ?_
    intro ht
    exact hset ⟨ht.command, ht.cls⟩

end Messages

section Runs

open SmbDisk

theorem disk_lawful : Lawful Disk.fileSystem Disk.data where
  stat p d := by
    change (Disk.stat p d).2.data = d.data
    rw [Disk.stat]
    split <;> rfl
  rename p q d := by
    change (Disk.rename p q d).2.data = d.data
    rw [Disk.rename]
    split <;> rfl
  chmod setfs hs p mode d := by
    cases hs
    change (Disk.touch p d).2.data = d.data
    rw [Disk.touch]
    split <;> rfl
  chtimes setfs hs p a t d := by
    cases hs
    change (Disk.touch p d).2.data = d.data
    rw [Disk.touch]
    split <;> rfl
  fileStat f d := rfl
  readAt f off n d := rfl
  sync f sync hs := by cases hs
  close f d := rfl

/-- A handle with read access alone on the file `f`, which holds three bytes. -/
def readOnlyOpen : List Section := loggedOn ++ opening 0 0 [['f']] accessReadData

def start : World Disk :=
  world (reached readOnlyOpen) (Disk.setData 0 [1, 2, 3] (Disk.create [['f']] Disk.empty))

def writeBody : Bytes :=
  bytes 2 49 ++ bytes 2 112 ++ bytes 4 1 ++ zeros 8 ++ fileIDBytes ⟨6, 6⟩ ++ zeros 16 ++ [9]

def writeMessage : Message := message cmdWrite 7 1 writeBody

def truncateMessage : Message := message cmdSetInfo 7 1 (setInfoBody 20 ⟨6, 6⟩ (zeros 8))

theorem start_addressed {command} (off : ℕ) {body} (hoff : fileIDOffset command = some off)
    (hid : requestFileID (message command 7 1 body) off = some ⟨6, 6⟩) :
    Addressed start 0 (message command 7 1 body) 0 := by
  have hs : session start.tables 7 0 = some 0 := by decide +kernel
  have ha : (start.tables.session 0).authenticated = true := by decide +kernel
  have ht : (1 : UInt32) ∈ (start.tables.session 0).trees := by decide +kernel
  have hh : handle start.tables 0 1 ⟨6, 6⟩ = some 0 := by decide +kernel
  exact ⟨off, hoff, 0, ⟨6, 6⟩, ⟨hs, ha⟩, ht, hid, hh⟩

/-- A WRITE through the handle leaves every file as it was. -/
theorem readonly_content_iff_write : Addressed start 0 writeMessage 0 ∧
    (accessKinds (start.tables.handle 0).access).2.1 = false ∧
    (finalState (dispatch server 0 env writeMessage start)).fs.data = start.fs.data := by
  have hm : Addressed start 0 writeMessage 0 := start_addressed 16 rfl (by decide +kernel)
  have hro : (accessKinds (start.tables.handle 0).access).2.1 = false := by decide +kernel
  refine ⟨hm, hro, ?_⟩
  apply (readonly_content_iff server Disk.data disk_lawful start 0 env writeMessage 0 hm hro
    (fun hc => absurd hc (by decide))).2
  intro ht
  exact absurd ht.command (by decide)

/-- SET_INFO of the end-of-file class empties the file through the same handle. -/
theorem readonly_handle_truncates : Lawful server.fs Disk.data ∧
    run enter newServerState readOnlyOpen = some start.tables ∧
    Addressed start 0 truncateMessage 0 ∧
    (accessKinds (start.tables.handle 0).access).2.1 = false ∧
    start.fs.data 0 = [1, 2, 3] ∧
    succeeds (dispatch server 0 env truncateMessage start) = true ∧
    (finalState (dispatch server 0 env truncateMessage start)).fs.data 0 = [] := by
  refine ⟨disk_lawful, rfl, start_addressed 16 rfl ?_, ?_, ?_, ?_, ?_⟩ <;> decide +kernel

end Runs

end SmbAccess
