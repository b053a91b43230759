import FacetFS.GroupIndex

/-! # The tables of the SMB server

Sessions and open handles live in a heap and are named by reference. The tables that the state
lock guards are the session map, the handle, tree and snapshot tables of each session, the opens of
each path and the byte locks of each path. Every function below is one section under that lock. -/
namespace SmbState

open GroupIndex (Index members)

abbrev Bytes := List UInt8
abbrev Name := List Char
abbrev Path := List Name
abbrev ConnRef := ℕ
abbrev SessionRef := ℕ
abbrev HandleRef := ℕ
abbrev FileRef := ℕ

inductive Status where
  | success
  | noMoreFiles
  | bufferOverflow
  | invalidInfoClass
  | infoLengthMismatch
  | invalidParameter
  | noSuchFile
  | endOfFile
  | moreProcessingRequired
  | accessDenied
  | objectNameInvalid
  | objectNameNotFound
  | objectNameCollision
  | sharingViolation
  | deletePending
  | lockNotGranted
  | rangeNotLocked
  | diskFull
  | insufficientResources
  | mediaWriteProtected
  | fileIsADirectory
  | notSupported
  | networkNameDeleted
  | badNetworkName
  | directoryNotEmpty
  | notADirectory
  | cancelled
  | fileClosed
  | logonFailure
  | userSessionDeleted
  | unsuccessful
  deriving DecidableEq, Repr

def maxHandlesPerSession : ℕ := 4096
def maxDirectorySnapshots : ℕ := 64
def maxSessionsPerConnection : ℕ := 64
def maxTreesPerSession : ℕ := 64
def maxLocksPerSession : ℕ := 65536

def accessReadData : UInt32 := 0x00000001
def accessWriteData : UInt32 := 0x00000002
def accessAppendData : UInt32 := 0x00000004
def accessDelete : UInt32 := 0x00010000
def accessGenericAll : UInt32 := 0x10000000
def accessGenericWrite : UInt32 := 0x40000000
def accessGenericRead : UInt32 := 0x80000000

def shareRead : UInt32 := 0x00000001
def shareWrite : UInt32 := 0x00000002
def shareDelete : UInt32 := 0x00000004

/-- The sixteen bytes of a FileId, as its two little-endian halves. -/
structure FileID where
  low : UInt64
  high : UInt64
  deriving DecidableEq, Repr

/-- What a file system reports of a file; the zero time is `none`. -/
structure FileInfo where
  name : Name
  isDir : Bool
  size : Int
  perm : BitVec 9
  modTime : Option Int
  deriving DecidableEq

structure DirSnapshot where
  entries : List FileInfo
  pattern : Name
  index : ℕ
  started : Bool

structure Session where
  id : UInt64
  conn : ConnRef
  authenticated : Bool
  authenticating : Bool
  sign : Bool
  signingKey : Bytes
  preauth : Bytes
  challenge : Bytes
  trees : List UInt32
  handles : AList fun _ : FileID => HandleRef
  snapshots : AList fun _ : FileID => DirSnapshot
  nextTree : UInt32
  nextHandle : UInt64
  handleSeal : UInt64

/-- A handle without a file is a reservation whose CREATE is still in flight. -/
structure OpenHandle where
  id : FileID
  session : SessionRef
  treeID : UInt32
  path : Path
  file : Option FileRef
  info : FileInfo
  access : UInt32
  share : UInt32
  options : UInt32
  deleteOnClose : Bool

structure ByteLock where
  handle : HandleRef
  start : UInt64
  stop : UInt64
  write : Bool
  deriving DecidableEq

structure LockElement where
  start : UInt64
  length : UInt64
  flags : UInt32

structure State where
  sessions : AList fun _ : UInt64 => SessionRef
  session : SessionRef → Session
  handle : HandleRef → OpenHandle
  opens : Index Path HandleRef
  locks : Index Path ByteLock
  nextSession : SessionRef
  nextOpen : HandleRef

def noInfo : FileInfo := ⟨[], false, 0, 0, none⟩

def newSessionRecord (id : UInt64) (conn : ConnRef) : Session where
  id := id
  conn := conn
  authenticated := false
  authenticating := false
  sign := false
  signingKey := []
  preauth := []
  challenge := []
  trees := []
  handles := ∅
  snapshots := ∅
  nextTree := 0
  nextHandle := 0
  handleSeal := id

def newServerState : State where
  sessions := ∅
  session _ := newSessionRecord 0 0
  handle _ := ⟨⟨0, 0⟩, 0, 0, [], none, noInfo, 0, 0, 0, false⟩
  opens := ∅
  locks := ∅
  nextSession := 0
  nextOpen := 0

section Access

/-- The kinds of access a mask grants: read, write, delete. -/
def accessKinds (access : UInt32) : Bool × Bool × Bool :=
  (access &&& (accessReadData ||| accessGenericRead ||| accessGenericAll) != 0,
    access &&& (accessWriteData ||| accessAppendData ||| accessGenericWrite |||
      accessGenericAll) != 0,
    access &&& (accessDelete ||| accessGenericAll) != 0)

def shareConflict (aAccess aShare bAccess bShare : UInt32) : Bool :=
  let (ar, aw, ad) := accessKinds aAccess
  let (br, bw, bd) := accessKinds bAccess
  (ar && bShare &&& shareRead == 0) || (aw && bShare &&& shareWrite == 0) ||
    (ad && bShare &&& shareDelete == 0) || (br && aShare &&& shareRead == 0) ||
    (bw && aShare &&& shareWrite == 0) || (bd && aShare &&& shareDelete == 0)

theorem shareConflict_comm (a as b bs : UInt32) :
    shareConflict a as b bs = shareConflict b bs a as := by
  simp only [shareConflict]
  generalize accessKinds a = x
  generalize accessKinds b = y
  obtain ⟨ar, aw, ad⟩ := x
  obtain ⟨br, bw, bd⟩ := y
  simp only [Bool.or_comm, Bool.or_left_comm]

end Access

namespace State

variable (st : State)

def setSession (s : SessionRef) (r : Session) : State :=
  { st with session := Function.update st.session s r }

def setHandle (h : HandleRef) (r : OpenHandle) : State :=
  { st with handle := Function.update st.handle h r }

def Current (s : SessionRef) : Prop := st.sessions.lookup (st.session s).id = some s

instance (s : SessionRef) : Decidable (st.Current s) :=
  inferInstanceAs (Decidable (_ = _))

/-- Does the session of a handle list it under its id? -/
def Registered (h : HandleRef) : Prop :=
  (st.session (st.handle h).session).handles.lookup (st.handle h).id = some h

instance (h : HandleRef) : Decidable (st.Registered h) :=
  inferInstanceAs (Decidable (_ = _))

end State

section Sessions

def openSession (st : State) (id : UInt64) (conn : ConnRef) : State :=
  { st with
    sessions := st.sessions.insert id st.nextSession
    session := Function.update st.session st.nextSession (newSessionRecord id conn)
    nextSession := st.nextSession + 1 }

/-- `draws` are the random ids of the eight attempts; it ends where the random source fails. -/
def newSession (st : State) (conn : ConnRef) (draws : List UInt64) : Option SessionRef × State :=
  if (st.sessions.entries.filter fun e => (st.session e.2).conn = conn).length ≥
      maxSessionsPerConnection then (none, st)
  else
    match (draws.take 8).find? fun id => id ≠ 0 ∧ st.sessions.lookup id = none with
    | none => (none, st)
    | some id => (some st.nextSession, openSession st id conn)

def session (st : State) (id : UInt64) (conn : ConnRef) : Option SessionRef :=
  match st.sessions.lookup id with
  | none => none
  | some s => if (st.session s).conn = conn then some s else none

def listed (st : State) (s : SessionRef) : List HandleRef :=
  (st.session s).handles.entries.map (·.2)

def dropSession (st : State) (s : SessionRef) : State :=
  { st with sessions := st.sessions.erase (st.session s).id }

/-- The first section of closing a session: it leaves the session map, and the handles found in its
table are to be closed one by one. -/
def closeSession (st : State) (s : SessionRef) : List HandleRef × State :=
  if st.Current s then (listed st s, dropSession st s) else ([], st)

def treeConnect (st : State) (s : SessionRef) : Option UInt32 × State :=
  let r := st.session s
  if r.trees.length ≥ maxTreesPerSession then (none, st)
  else
    let next := if r.nextTree + 1 = 0 then r.nextTree + 2 else r.nextTree + 1
    (some next, st.setSession s { r with nextTree := next, trees := r.trees.insert next })

def cutTree (st : State) (s : SessionRef) (treeID : UInt32) : State :=
  st.setSession s { st.session s with trees := (st.session s).trees.erase treeID }

/-- The first section of TREE_DISCONNECT: the tree goes, and the handles found under it are to be
closed one by one. -/
def treeDisconnect (st : State) (s : SessionRef) (treeID : UInt32) :
    Option (List HandleRef) × State :=
  if treeID ∈ (st.session s).trees then
    (some ((listed st s).filter fun h => (st.handle h).treeID = treeID), cutTree st s treeID)
  else (none, st)

end Sessions

section Handles

def handleMeta (st : State) (h : HandleRef) : Path × Bool :=
  ((st.handle h).path, (st.handle h).deleteOnClose)

def nextHandleNumber (n : UInt64) : UInt64 := if n + 1 = 0 then n + 2 else n + 1

def sealHandle (mask n : UInt64) : UInt64 := if n ^^^ mask = 0 then n else n ^^^ mask

def refusal (st : State) (h : OpenHandle) : List HandleRef → Option Status
  | [] => none
  | k :: ks =>
    if (st.handle k).deleteOnClose then some .deletePending
    else if shareConflict h.access h.share (st.handle k).access (st.handle k).share then
      some .sharingViolation
    else refusal st h ks

def register (st : State) (s : SessionRef) (h : OpenHandle) : State :=
  let r := st.session s
  let n := nextHandleNumber r.nextHandle
  let id : FileID := ⟨sealHandle r.handleSeal n, sealHandle r.handleSeal n⟩
  { st with
    session := Function.update st.session s
      { r with nextHandle := n, handles := r.handles.insert id st.nextOpen }
    handle := Function.update st.handle st.nextOpen { h with id := id, session := s, file := none }
    opens := GroupIndex.put st.opens h.path st.nextOpen
    nextOpen := st.nextOpen + 1 }

/-- Reserves the new handle `h`, whose reference is the next free one. -/
def addHandle (st : State) (s : SessionRef) (h : OpenHandle) : Except Status HandleRef × State :=
  if ¬ st.Current s then (.error .userSessionDeleted, st)
  else if (st.session s).handles.entries.length ≥ maxHandlesPerSession then
    (.error .insufficientResources, st)
  else
    match refusal st h (members st.opens h.path) with
    | some status => (.error status, st)
    | none => (.ok st.nextOpen, register st s h)

def commitHandle (st : State) (h : HandleRef) (f : FileRef) (info : FileInfo) : Bool × State :=
  if st.Current (st.handle h).session then
    (true, st.setHandle h { st.handle h with file := some f, info := info })
  else (false, st)

def abortHandle (st : State) (h : HandleRef) : State :=
  let r := st.handle h
  let s := st.session r.session
  { st.setSession r.session { s with handles := s.handles.erase r.id } with
    opens := GroupIndex.drop st.opens r.path h }

def handle (st : State) (s : SessionRef) (treeID : UInt32) (id : FileID) : Option HandleRef :=
  match (st.session s).handles.lookup id with
  | none => none
  | some h =>
    if (st.handle h).treeID ≠ treeID ∨ (st.handle h).file = none then none else some h

/-- The locks of the path of `h` that other handles hold. -/
def otherLocks (st : State) (h : HandleRef) : List ByteLock :=
  (members st.locks (st.handle h).path).filter fun l => l.handle ≠ h

def closeHandle (st : State) (h : HandleRef) : State :=
  let r := st.handle h
  let s := st.session r.session
  { st.setSession r.session
      { s with handles := s.handles.erase r.id, snapshots := s.snapshots.erase r.id } with
    opens := GroupIndex.drop st.opens r.path h
    locks := if otherLocks st h = [] then st.locks.erase r.path
      else st.locks.insert r.path (otherLocks st h) }

def setDisposition (st : State) (h : HandleRef) (pending : Bool) : State :=
  st.setHandle h { st.handle h with deleteOnClose := pending }

end Handles

section Rename

def movePaths (st : State) (newName : Path) (hs : List HandleRef) : HandleRef → OpenHandle :=
  fun h => if h ∈ hs then { st.handle h with path := newName } else st.handle h

def renameOpens (st : State) (oldName newName : Path) : State :=
  let opened := members st.opens oldName
  let opens := st.opens.erase oldName
  let opens := opened.foldl (fun ix h => GroupIndex.put ix newName h)
    (opens.insert newName (members opens newName))
  let held := members st.locks oldName
  let locks := if held = [] then st.locks
    else (st.locks.insert newName (members st.locks newName ++ held)).erase oldName
  { st with
    handle := movePaths st newName opened
    opens := opens
    locks := locks }

end Rename

section Locks

def flagShared : UInt32 := 0x01
def flagExclusive : UInt32 := 0x02
def flagUnlock : UInt32 := 0x04

def maxLockElements : ℕ := 64

/-- The flags of an element are an unlock alone, or a lock that is shared or exclusive. -/
def validFlags (flags : UInt32) : Bool :=
  flags &&& ~~~0x17 == 0 &&
    !(flags &&& flagUnlock != 0 && flags &&& 0x03 != 0) &&
    !(flags &&& flagUnlock == 0 && (flags &&& 0x03 == 0 || flags &&& 0x03 == 0x03))

def conflicts (h : HandleRef) (start stop : UInt64) (write : Bool) (l : ByteLock) : Bool :=
  l.handle != h && decide (start < l.stop) && decide (l.start < stop) && (write || l.write)

/-- One element of a LOCK request, on the locks of the path and the number of locks the session
holds. -/
def lockElement (h : HandleRef) (e : LockElement) (locks : List ByteLock) (held : ℕ) :
    Except Status (List ByteLock × ℕ) :=
  let stop := e.start + e.length
  if ¬ validFlags e.flags then .error .invalidParameter
  else if e.length = 0 ∨ stop < e.start then .error .invalidParameter
  else if e.flags &&& flagUnlock ≠ 0 then
    if locks.any fun l => l.handle = h ∧ l.start = e.start ∧ l.stop = stop then
      .ok (locks.eraseP fun l => l.handle = h ∧ l.start = e.start ∧ l.stop = stop, held - 1)
    else .error .rangeNotLocked
  else
    let write := e.flags &&& flagExclusive != 0
    if ¬ write ∧ e.flags &&& flagShared = 0 then .error .invalidParameter
    else if locks.any (conflicts h e.start stop write) then .error .lockNotGranted
    else if held ≥ maxLocksPerSession then .error .insufficientResources
    else .ok (locks ++ [⟨h, e.start, stop, write⟩], held + 1)

def lockElements (h : HandleRef) :
    List LockElement → List ByteLock → ℕ → Except Status (List ByteLock)
  | [], locks, _ => .ok locks
  | e :: es, locks, held =>
    match lockElement h e locks held with
    | .error status => .error status
    | .ok (locks, held) => lockElements h es locks held

def sessionLocks (st : State) (s : SessionRef) : ℕ :=
  (st.locks.entries.flatMap (·.2)).countP fun l => (st.handle l.handle).session = s

def lock (st : State) (h : HandleRef) (es : List LockElement) : Except Status Unit × State :=
  let p := (st.handle h).path
  let original := members st.locks p
  match lockElements h es original (sessionLocks st (st.handle h).session) with
  | .error status => (.error status, { st with locks := st.locks.insert p original })
  | .ok locks => (.ok (), { st with locks := st.locks.insert p locks })

end Locks

end SmbState
