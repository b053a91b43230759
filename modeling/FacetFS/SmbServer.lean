import FacetFS.EffectTriple
import FacetFS.SmbResponse

/-! # The commands of the SMB server

Each command is a computation over the state of the server and its file system, with the checks in
the order of the source. It ends with a response or with the status of a failure. The file system is
an interface whose calls may answer anything and change its own state; every call is counted. -/
namespace SmbServer

open SmbState SmbPath SmbWire SmbResponse LittleEndian EffectTriple

section Interfaces

/-- The errors of a file system, by the sentinel or error number they match. -/
inductive FsError where
  | notExist
  | exist
  | permission
  | invalid
  | cancelled
  | notEmpty
  | noSpace
  | readOnly
  | isDir
  | notDir
  | eof
  | other
  deriving DecidableEq

def fsStatus : FsError → Status
  | .notEmpty => .directoryNotEmpty
  | .noSpace => .diskFull
  | .readOnly => .mediaWriteProtected
  | .isDir => .fileIsADirectory
  | .notDir => .notADirectory
  | .notExist => .objectNameNotFound
  | .exist => .objectNameCollision
  | .permission => .accessDenied
  | .invalid => .invalidParameter
  | .cancelled => .cancelled
  | .eof => .unsuccessful
  | .other => .unsuccessful

inductive OpenMode where
  | readOnly
  | writeOnly
  | readWrite
  deriving DecidableEq

structure OpenFlags where
  mode : OpenMode
  create : Bool
  excl : Bool
  trunc : Bool
  deriving DecidableEq

structure FSStat where
  totalBytes : UInt64
  freeBytes : UInt64
  availBytes : UInt64
  nameMax : UInt32

/-- The calls that change metadata by path. -/
structure SetStatFS (φ : Type) where
  chmod : Path → BitVec 9 → φ → Except FsError Unit × φ
  chtimes : Path → Option Int → Option Int → φ → Except FsError Unit × φ
  truncate : Path → ℕ → φ → Except FsError Unit × φ

/-- A file system and its open files. `readAt` and `writeAt` are the positioned calls on an open
file; they report the bytes moved and the error that stopped them. An interface that the file
system may lack is optional. -/
structure FileSystem (φ : Type) where
  mkdir : Path → φ → Except FsError Unit × φ
  openFile : Path → OpenFlags → φ → Except FsError FileRef × φ
  removeAll : Path → φ → Except FsError Unit × φ
  rename : Path → Path → φ → Except FsError Unit × φ
  stat : Path → φ → Except FsError FileInfo × φ
  remove : Option (Path → φ → Except FsError Unit × φ)
  setStat : Option (SetStatFS φ)
  statVFS : Option (Path → φ → Except FsError FSStat × φ)
  fileStat : FileRef → φ → Except FsError FileInfo × φ
  readAt : FileRef → ℕ → ℕ → φ → (Bytes × Option FsError) × φ
  writeAt : FileRef → Bytes → ℕ → φ → (ℕ × Option FsError) × φ
  sync : FileRef → Option (φ → Except FsError Unit × φ)
  readdir : FileRef → ℕ → φ → (List FileInfo × Option FsError) × φ
  close : FileRef → φ → φ

structure Server (φ : Type) extends Config where
  lib : Lib
  fs : FileSystem φ

/-- What the random source, the clock and the authenticator answer while a message is handled. -/
structure Env where
  draws : List UInt64
  challenge : Option Bytes
  salt : Option Bytes
  now : Option Int
  ntHash : Name → Name → Option Bytes

structure Conn extends SmbCreditRun.Connection where
  dialect : UInt16
  signAlg : UInt16
  clientSecurityMode : UInt16
  clientCapabilities : UInt32
  clientGUID : Bytes
  preauth : Bytes

def Conn.fresh : Conn where
  toConnection := .fresh
  dialect := 0
  signAlg := 0
  clientSecurityMode := 0
  clientCapabilities := 0
  clientGUID := []
  preauth := List.replicate preauthHashSize 0

/-- A message that was given to the dispatcher, with the session it named at that moment. -/
structure Dispatched where
  conn : ConnRef
  msg : Message
  env : Env
  session : Option SessionRef

/-- The server, its connections and its file system. The number of calls on the file system and the
log of dispatched messages are kept for the statements only; no command reads them. -/
structure World (φ : Type) where
  tables : State
  conn : ConnRef → Conn
  nextConn : ConnRef
  fs : φ
  calls : ℕ
  log : List Dispatched

abbrev Action (φ α : Type) := EStateM Status (World φ) α

/-- The outcome of a command, with what it leaves in its message: the ids of a new session or tree,
the file of a CREATE and the session to close at the end of the frame. -/
structure Reply where
  status : Status
  body : Bytes
  sessionID : Option UInt64
  treeID : Option UInt32
  resultFileID : Option FileID
  closeSession : Option SessionRef

def ok (body : Bytes) : Reply := ⟨.success, body, none, none, none, none⟩

end Interfaces

section Basics

variable {φ : Type}

def call {α : Type} (f : φ → α × φ) : Action φ α := fun w =>
  .ok (f w.fs).1 { w with fs := (f w.fs).2, calls := w.calls + 1 }

def fsOk {α : Type} : Except FsError α → Action φ α
  | .ok a => pure a
  | .error e => throw (fsStatus e)

def locked {α : Type} (f : State → α × State) : Action φ α := fun w =>
  .ok (f w.tables).1 { w with tables := (f w.tables).2 }

def tables : Action φ State := fun w => .ok w.tables w

def updateConn (c : ConnRef) (f : Conn → Conn) : Action φ Unit := fun w =>
  .ok () { w with conn := Function.update w.conn c (f (w.conn c)) }

def connection (c : ConnRef) : Action φ Conn := fun w => .ok (w.conn c) w

def updateSession (s : SessionRef) (f : Session → Session) : Action φ Unit :=
  locked fun st => ((), st.setSession s (f (st.session s)))

def getHandle (h : HandleRef) : Action φ OpenHandle := fun w => .ok (w.tables.handle h) w

def maxInt64 : ℕ := 2 ^ 63 - 1

end Basics

section Sessions

variable {φ : Type} (srv : Server φ) (c : ConnRef) (env : Env)

def closeFile (f : FileRef) : Action φ Unit := call fun fs => ((), srv.fs.close f fs)

/-- The handle leaves the tables and its file is closed. -/
def closeHandle (h : HandleRef) : Action φ Unit := do
  let r ← getHandle h
  locked fun st => ((), SmbState.closeHandle st h)
  match r.file with
  | some f => closeFile srv f
  | none => pure ()

def removeName (name : Path) : Action φ (Except FsError Unit) :=
  match srv.fs.remove with
  | some remove => call (remove name)
  | none => call (srv.fs.removeAll name)

def closeOpen (h : HandleRef) : Action φ (Except FsError Unit) := do
  let r ← getHandle h
  closeHandle srv h
  if r.deleteOnClose then removeName srv r.path else pure (.ok ())

def closeAll (hs : List HandleRef) : Action φ Unit :=
  hs.forM fun h => do
    let _ ← closeOpen srv h

def closeSession (s : SessionRef) : Action φ Unit := do
  let hs ← locked fun st => SmbState.closeSession st s
  closeAll srv hs

def authSession (m : Message) : Action φ (Option SessionRef) := do
  let st ← tables
  match session st m.hdr.sessionID c with
  | none => pure none
  | some s => pure (if (st.session s).authenticated then some s else none)

/-- The authenticated session of a message, which most commands start with. -/
def userSession (m : Message) : Action φ SessionRef := do
  let s ← authSession c m
  require s .userSessionDeleted

def treeSession (m : Message) : Action φ SessionRef := do
  let s ← userSession c m
  let st ← tables
  refuse (m.hdr.treeID ∉ (st.session s).trees) .networkNameDeleted
  pure s

def serverDialects : List UInt16 := [dialect311, dialect210]
def maxDialects : ℕ := 64
def maxNegotiateContexts : ℕ := 8
/-- The contexts of a 3.1.1 negotiation, from the offset `pos` on; tells whether one of them offers
SHA-512. Every signing context selects the one algorithm the server prefers. -/
def readContexts (m : Message) : ℕ → ℕ → Bool → Option Bool
  | 0, _, preauthOK => some preauthOK
  | n + 1, pos, preauthOK => do
    let head ← m.slice pos 8 8
    let ctype := uint16 head 0
    let length := (uint16 head 2).toNat
    let data ← m.slice ((pos + 8) % 2 ^ 32) length maxSecurityBuffer
    let preauthOK ←
      if ctype = contextPreauthIntegrity then
        if data.length < 4 then none
        else
          let hashes := (uint16 data 0).toNat
          if hashes * 2 + 4 + (uint16 data 2).toNat > data.length then none
          else some (preauthOK || (List.range hashes).any fun i => uint16 data (4 + i * 2) = hashSHA512)
      else if ctype = contextSigning then
        if data.length < 2 then none
        else if (uint16 data 0).toNat * 2 + 2 > data.length then none
        else some preauthOK
      else some preauthOK
    if n = 0 then some preauthOK
    else
      let next := align8 (pos + 8 + length)
      if next ≤ pos ∨ next > m.raw.length then none
      else readContexts m n next preauthOK

/-- The signing algorithm and the contexts of the answer. Without SHA-512 for the hash of the
negotiation there is nothing to bind a session key to. -/
def negotiateContexts (m : Message) (offset count : ℕ) : Action φ (UInt16 × Bytes) := do
  refuse (count = 0 ∨ count > maxNegotiateContexts) .invalidParameter
  let preauthOK ← require (readContexts m count offset false) .invalidParameter
  refuse (¬ preauthOK) .invalidParameter
  let salt ← require env.salt .insufficientResources
  pure (signAESCMAC, answeringContexts signAESCMAC salt)

def agreeSigning (m : Message) (dialect : UInt16) (offset count : ℕ) :
    Action φ (UInt16 × Bytes) :=
  if dialect = dialect311 then negotiateContexts env m offset count else pure (signHMACSHA256, [])

def negotiate (m : Message) : Action φ Reply := do
  let b := m.body
  refuse (b.length < 36 ∨ uint16 b 0 ≠ 36) .invalidParameter
  let count := (uint16 b 2).toNat
  let mode := uint16 b 4
  let contextOffset := (uint32 b 28).toNat
  let contextCount := (uint16 b 32).toNat
  refuse (count = 0 ∨ count > maxDialects) .invalidParameter
  refuse (b.length < 36 + count * 2) .invalidParameter
  let chosen ← require
    (serverDialects.find? fun want => (List.range count).any fun i => uint16 b (36 + i * 2) = want)
    .notSupported
  refuse (srv.requireSigning ∧ mode &&& (signingEnabled ||| signingRequired) = 0) .accessDenied
  let agreed ← agreeSigning env m chosen contextOffset contextCount
  updateConn c fun conn =>
    { conn with
      dialect := chosen
      signAlg := agreed.1
      clientSecurityMode := mode
      clientCapabilities := uint32 b 8
      clientGUID := (b.drop 12).take 16 }
  pure (ok (negotiateResponse srv.toConfig chosen agreed.2 env.now))

/-- The first leg of the exchange: a session with a challenge of its own. -/
def beginSession (m : Message) (raw : Bool) : Action φ Reply := do
  refuse (m.hdr.sessionID ≠ 0) .invalidParameter
  let made ← locked fun st => newSession st c env.draws
  let s ← require made .insufficientResources
  match env.challenge with
  | none => do
    closeSession srv s
    throw .insufficientResources
  | some challenge => do
    let mode : UInt16 := (m.body.getD 3 0).toUInt16
    let conn ← connection c
    updateSession s fun r => { r with
      preauth := conn.preauth
      sign := srv.requireSigning || mode &&& signingRequired != 0 }
    if srv.requireSigning ∧ mode &&& (signingEnabled ||| signingRequired) = 0 then do
      closeSession srv s
      throw .accessDenied
    else do
      updateSession s fun r => { r with
        preauth := advancePreauth srv.lib r.preauth m.raw
        challenge := challenge }
      let st ← tables
      let token := ntlmChallenge srv.server challenge env.now
      pure { ok (sessionSetupResponse (if raw then token else spnegoChallenge token)) with
        status := .moreProcessingRequired
        sessionID := some (st.session s).id }

/-- The second leg: the response to the challenge, from which the signing key is derived. -/
def finishSession (m : Message) (token : Bytes) (raw : Bool) : Action φ Reply := do
  let st ← tables
  let s ← require (session st m.hdr.sessionID c) .userSessionDeleted
  refuse ((st.session s).authenticated ∨ (st.session s).authenticating) .userSessionDeleted
  updateSession s fun r => { r with
    authenticating := true
    preauth := advancePreauth srv.lib r.preauth m.raw }
  let st ← tables
  let conn ← connection c
  match authenticateNTLM srv.lib env.ntHash token (st.session s).challenge with
  | none => do
    closeSession srv s
    throw .logonFailure
  | some result => do
    updateSession s fun r => { r with
      signingKey :=
        if conn.dialect = dialect311 then
          smbKDF srv.lib result.key signingKeyLabel (st.session s).preauth
        else result.key
      authenticated := true
      authenticating := false }
    pure (ok (sessionSetupResponse (if raw then [] else spnegoComplete)))

def setupBlob (m : Message) : Option Bytes :=
  if m.body.length < 24 ∨ uint16 m.body 0 ≠ 25 then none
  else
    match m.slice (uint16 m.body 12).toNat (uint16 m.body 14).toNat maxSecurityBuffer with
    | none => none
    | some blob => if blob = [] then none else some blob

def sessionSetup (m : Message) : Action φ Reply := do
  let blob ← require (setupBlob m) .invalidParameter
  let token ← require (ntlmToken blob) .logonFailure
  let typ ← require (ntlmType token) .logonFailure
  let raw := ntlmSignature.isPrefixOf blob
  if typ = 1 then beginSession srv c env m raw
  else if typ = 3 then finishSession srv c env m token raw
  else throw .logonFailure

def ipcShare : Name := ['I', 'P', 'C', '$']

def namesShare (unc : Name) : Bool :=
  let trimmed := if [backslash, backslash].isPrefixOf unc then unc.drop 2 else unc
  match split backslash trimmed with
  | [host, share] =>
    host != [] && srv.lib.equalFold share srv.share && !srv.lib.equalFold share ipcShare
  | _ => false

def treeConnect (m : Message) : Action φ Reply := do
  let s ← userSession c m
  refuse (m.body.length < 8 ∨ uint16 m.body 0 ≠ 9) .invalidParameter
  let wire ← require
    (m.slice (uint16 m.body 4).toNat (uint16 m.body 6).toNat maxPathBytes) .invalidParameter
  let unc ← require (decodeUTF16 wire) .badNetworkName
  refuse (¬ namesShare srv unc) .badNetworkName
  let made ← locked fun st => SmbState.treeConnect st s
  let id ← require made .insufficientResources
  pure { ok treeConnectResponse with treeID := some id }

def treeDisconnect (m : Message) : Action φ Reply := do
  let s ← userSession c m
  refuse (m.body.length < 4 ∨ uint16 m.body 0 ≠ 4) .invalidParameter
  let found ← locked fun st => SmbState.treeDisconnect st s m.hdr.treeID
  let hs ← require found .invalidParameter
  closeAll srv hs
  pure (ok emptyResponse)

/-- The connection closes the session after the responses of the frame have been signed. -/
def logoff (m : Message) : Action φ Reply := do
  let s ← userSession c m
  refuse (m.body.length < 4 ∨ uint16 m.body 0 ≠ 4) .invalidParameter
  pure { ok emptyResponse with closeSession := some s }

end Sessions

section Files

variable {φ : Type} (srv : Server φ) (c : ConnRef)

def fileOpen : UInt32 := 1
def fileSupersede : UInt32 := 0
def fileCreate : UInt32 := 2
def fileOpenIf : UInt32 := 3
def fileOverwrite : UInt32 := 4
def fileOverwriteIf : UInt32 := 5

def fileDirectoryFile : UInt32 := 0x00000001
def fileWriteThrough : UInt32 := 0x00000002
def fileDeleteOnClose : UInt32 := 0x00001000
def fileNonDirectoryFile : UInt32 := 0x00000040

def maxCreateContexts : ℕ := 16

def desiredOpenMode (access : UInt32) : OpenMode :=
  match accessKinds access with
  | (true, true, _) => .readWrite
  | (false, true, _) => .writeOnly
  | _ => .readOnly

/-- The create, exclusive and truncate flags of a disposition, and the action it reports. -/
def dispositionFlags (disposition : UInt32) : Option ((Bool × Bool × Bool) × ℕ) :=
  if disposition = fileOpen then some ((false, false, false), 1)
  else if disposition = fileCreate then some ((true, true, false), 2)
  else if disposition = fileOpenIf then some ((true, false, false), 1)
  else if disposition = fileOverwrite then some ((false, false, true), 3)
  else if disposition = fileOverwriteIf ∨ disposition = fileSupersede then
    some ((true, false, true), 3)
  else none

/-- The walk over the create contexts from `pos` on. Every round but the last goes at least sixteen
bytes ahead, and there are at most `maxCreateContexts` of them. -/
def createContextsFrom (b : Bytes) : ℕ → ℕ → ℕ → Bool
  | 0, _, _ => false
  | fuel + 1, pos, count =>
    if pos ≥ b.length then decide (count > 0)
    else if count ≥ maxCreateContexts ∨ b.length - pos < 16 then false
    else
      let next := (uint32 b pos).toNat
      let nameOff := (uint16 b (pos + 4)).toNat
      let nameLen := (uint16 b (pos + 6)).toNat
      let dataOff := (uint16 b (pos + 10)).toNat
      let dataLen := (uint32 b (pos + 12)).toNat
      if next ≠ 0 ∧ (next % 8 ≠ 0 ∨ next < 16 ∨ pos + next > b.length) then false
      else
        let stop := if next ≠ 0 then pos + next else b.length
        if nameOff < 16 ∨ pos + nameOff + nameLen > stop ∨
            (dataLen ≠ 0 ∧ (dataOff < 16 ∨ pos + dataOff + dataLen > stop)) then false
        else if next = 0 then true
        else createContextsFrom b fuel (pos + next) (count + 1)

def validCreateContexts (b : Bytes) : Bool := createContextsFrom b (maxCreateContexts + 2) 0 0

def isOverwrite (disposition : UInt32) : Bool :=
  disposition = fileOverwrite || disposition = fileOverwriteIf || disposition = fileSupersede

/-- The fields of a CREATE. -/
structure CreateRequest where
  access : UInt32
  share : UInt32
  disposition : UInt32
  options : UInt32
  name : Path
  flags : Bool × Bool × Bool
  action : ℕ

def decodeCreate (m : Message) : Except Status CreateRequest :=
  let b := m.body
  if b.length < 56 ∨ uint16 b 0 ≠ 57 then .error .invalidParameter
  else
    match m.slice (uint16 b 44).toNat (uint16 b 46).toNat maxPathBytes with
    | none => .error .invalidParameter
    | some wire =>
      match smbPath srv.lib.toUpper wire with
      | none => .error .objectNameInvalid
      | some name =>
        let contextsLen := (uint32 b 52).toNat
        let contextsOk := contextsLen = 0 ∨
          (m.slice (uint32 b 48).toNat contextsLen maxSecurityBuffer).any validCreateContexts
        if ¬ contextsOk then .error .invalidParameter
        else
          match dispositionFlags (uint32 b 36) with
          | none => .error .invalidParameter
          | some (flags, action) =>
            .ok ⟨uint32 b 24, uint32 b 32, uint32 b 36, uint32 b 40, name, flags, action⟩

/-- The checks of a CREATE against what is at its path, in order, and the action it reports. -/
def checkExisting (r : CreateRequest) (hasRemove : Bool) (info : Option FileInfo) :
    Except Status ℕ :=
  let existed := info.isSome
  let isDir := info.any (·.isDir)
  if existed ∧ r.disposition = fileCreate then .error .objectNameCollision
  else if ¬ existed ∧ (r.disposition = fileOpen ∨ r.disposition = fileOverwrite) then
    .error .objectNameNotFound
  else if existed ∧ r.options &&& fileDirectoryFile ≠ 0 ∧ ¬ isDir then .error .notADirectory
  else if existed ∧ r.options &&& fileNonDirectoryFile ≠ 0 ∧ isDir then .error .fileIsADirectory
  else if existed ∧ isDir ∧ isOverwrite r.disposition then .error .fileIsADirectory
  else if r.options &&& fileDeleteOnClose ≠ 0 ∧ ¬ (accessKinds r.access).2.2 then
    .error .accessDenied
  else if r.options &&& fileDeleteOnClose ≠ 0 ∧
      ((existed ∧ isDir) ∨ (¬ existed ∧ r.options &&& fileDirectoryFile ≠ 0)) ∧ ¬ hasRemove then
    .error .notSupported
  else if ¬ existed then .ok 2
  else if r.disposition = fileOpenIf then .ok 1
  else .ok r.action

/-- What is at the path of a CREATE; only a missing file lets it go on. -/
def existing : Except FsError FileInfo → Except Status (Option FileInfo)
  | .ok info => .ok (some info)
  | .error .notExist => .ok none
  | .error e => .error (fsStatus e)

/-- A failure after the reservation gives the reserved handle up. -/
def abortOnError {α : Type} (h : HandleRef) (x : Action φ α) : Action φ α := fun w =>
  match x w with
  | .ok a w => .ok a w
  | .error e w => .error e { w with tables := abortHandle w.tables h }

/-- A directory is to be made: it is asked for and nothing is there. -/
def makesDirectory (r : CreateRequest) (info : Option FileInfo) : Bool :=
  info.isNone && r.options &&& fileDirectoryFile != 0

def makeDirectory (r : CreateRequest) (info : Option FileInfo) : Action φ Unit :=
  if makesDirectory r info then do
    let made ← call (srv.fs.mkdir r.name)
    fsOk made
  else pure ()

def createFlags (r : CreateRequest) (info : Option FileInfo) : OpenFlags :=
  if makesDirectory r info || info.any (·.isDir) then ⟨.readOnly, false, false, false⟩
  else ⟨desiredOpenMode r.access, r.flags.1, r.flags.2.1, r.flags.2.2⟩

def checkOpened (r : CreateRequest) : Except FsError FileInfo → Except Status FileInfo
  | .error e => .error (fsStatus e)
  | .ok info =>
    if r.options &&& fileDirectoryFile ≠ 0 ∧ ¬ info.isDir then .error .notADirectory
    else if r.options &&& fileNonDirectoryFile ≠ 0 ∧ info.isDir then .error .fileIsADirectory
    else .ok info

def closeAndFail {α : Type} (f : FileRef) (status : Status) : Action φ α := do
  closeFile srv f
  throw status

/-- Opens the file of a reserved handle and commits it. -/
def openReserved (r : CreateRequest) (info : Option FileInfo) (h : HandleRef) :
    Action φ FileInfo := do
  makeDirectory srv r info
  let opened ← call (srv.fs.openFile r.name (createFlags r info))
  let f ← fsOk opened
  let stat ← call (srv.fs.fileStat f)
  match checkOpened r stat with
  | .error status => closeAndFail srv f status
  | .ok info => do
    let committed ← locked fun st => commitHandle st h f info
    if committed then pure info else closeAndFail srv f .userSessionDeleted

def create (m : Message) : Action φ Reply := do
  let s ← treeSession c m
  let r ← orThrow (decodeCreate srv m)
  let stat ← call (srv.fs.stat r.name)
  let info ← orThrow (existing stat)
  let action ← orThrow (checkExisting r srv.fs.remove.isSome info)
  let record : OpenHandle :=
    ⟨⟨0, 0⟩, s, m.hdr.treeID, r.name, none, noInfo, r.access, r.share, r.options,
      r.options &&& fileDeleteOnClose != 0⟩
  let added ← locked fun st => addHandle st s record
  let h ← orThrow added
  let opened ← abortOnError h (openReserved srv r info h)
  let st ← tables
  let id := (st.handle h).id
  pure { ok (createResponse id opened action) with resultFileID := some id }

def openFor (m : Message) (bodyOffset : ℕ) : Action φ HandleRef := do
  let s ← treeSession c m
  let id ← require (requestFileID m bodyOffset) .invalidParameter
  let st ← tables
  require (handle st s m.hdr.treeID id) .fileClosed

def fileOf (h : HandleRef) : Action φ FileRef := do
  let r ← getHandle h
  require r.file .fileClosed

def close (m : Message) : Action φ Reply := do
  refuse (m.body.length < 24 ∨ uint16 m.body 0 ≠ 24) .invalidParameter
  let h ← openFor c m 8
  let f ← fileOf h
  let info ← call (srv.fs.fileStat f)
  let closed ← closeOpen srv h
  fsOk closed
  pure (ok (closeResponse (if uint16 m.body 2 &&& 1 ≠ 0 then info.toOption else none)))

def chargeCovers (m : Message) (n : ℕ) : Bool :=
  decide (max ((n + 65535) / 65536) 1 ≤ m.hdr.charge)

/-- The end of the file is a failure only if nothing was read. -/
def readResult : Bytes × Option FsError → Except Status Bytes
  | (data, none) => .ok data
  | (data, some .eof) => if data = [] then .error .endOfFile else .ok data
  | (_, some e) => .error (fsStatus e)

def read (m : Message) : Action φ Reply := do
  refuse (m.body.length < 48 ∨ uint16 m.body 0 ≠ 49) .invalidParameter
  let n := (uint32 m.body 4).toNat
  let off := (uint64 m.body 8).toNat
  refuse (n > srv.maxRead ∨ off > maxInt64) .invalidParameter
  refuse (¬ chargeCovers m n) .invalidParameter
  let h ← openFor c m 16
  let r ← getHandle h
  refuse r.info.isDir .fileIsADirectory
  refuse (¬ (accessKinds r.access).1) .accessDenied
  let f ← fileOf h
  let got ← call (srv.fs.readAt f off n)
  let data ← orThrow (readResult got)
  pure (ok (readResponse data))

def syncFile (f : FileRef) : Action φ Unit :=
  match srv.fs.sync f with
  | some sync => do
    let synced ← call sync
    fsOk synced
  | none => pure ()

def syncIf (c : Prop) [Decidable c] (f : FileRef) : Action φ Unit :=
  if c then syncFile srv f else pure ()

def writeResult (length : ℕ) : ℕ × Option FsError → Except Status ℕ
  | (_, some e) => .error (fsStatus e)
  | (written, none) => if written ≠ length then .error .diskFull else .ok written

def write (m : Message) : Action φ Reply := do
  refuse (m.body.length < 48 ∨ uint16 m.body 0 ≠ 49) .invalidParameter
  let n := (uint32 m.body 4).toNat
  let off := (uint64 m.body 8).toNat
  refuse (n > srv.maxWrite ∨ off > maxInt64) .invalidParameter
  refuse (¬ chargeCovers m n) .invalidParameter
  let data ← require (m.slice (uint16 m.body 2).toNat n srv.maxWrite) .invalidParameter
  let h ← openFor c m 16
  let r ← getHandle h
  refuse r.info.isDir .fileIsADirectory
  refuse (¬ (accessKinds r.access).2.1) .accessDenied
  let f ← fileOf h
  let done ← call (srv.fs.writeAt f data off)
  let written ← orThrow (writeResult data.length done)
  syncIf srv (uint32 m.body 44 &&& 1 ≠ 0 ∨ r.options &&& fileWriteThrough ≠ 0) f
  pure (ok (writeResponse written))

def flush (m : Message) : Action φ Reply := do
  refuse (m.body.length < 24 ∨ uint16 m.body 0 ≠ 24) .invalidParameter
  let h ← openFor c m 8
  let f ← fileOf h
  syncFile srv f
  pure (ok emptyResponse)

def decodeElements (b : Bytes) (count : ℕ) : List LockElement :=
  (List.range count).map fun i =>
    ⟨uint64 b (24 + i * 24), uint64 b (24 + i * 24 + 8), uint32 b (24 + i * 24 + 16)⟩

def lock (m : Message) : Action φ Reply := do
  refuse (m.body.length < 48 ∨ uint16 m.body 0 ≠ 48) .invalidParameter
  let count := (uint16 m.body 2).toNat
  refuse (count = 0 ∨ count > maxLockElements ∨ 24 + count * 24 > m.body.length) .invalidParameter
  let h ← openFor c m 8
  let result ← locked fun st => SmbState.lock st h (decodeElements m.body count)
  orThrow result
  pure (ok emptyResponse)

end Files

section Info

variable {φ : Type} (srv : Server φ) (c : ConnRef)

def infoFile : UInt8 := 1
def infoFilesystem : UInt8 := 2
def infoSecurity : UInt8 := 3

def sector : ℕ := 512
def filesystemName : Name := ['F', 'A', 'C', 'E', 'T', 'F', 'S']

def sectors (v : UInt64) : Bytes := bytes 8 (v.toNat / sector)

def volumeStat (name : Path) : Action φ (Option FSStat) :=
  match srv.fs.statVFS with
  | none => pure none
  | some vfs => do
    let stat ← call (vfs name)
    let s ← fsOk stat
    pure (some s)

/-- Two classes need a file system that reports its size. -/
def volumeData (cls : UInt8) (stat : Option FSStat) : Except Status Bytes :=
  if cls = 1 then
    let label := utf16Bytes srv.share
    .ok (bytes 8 (fileTime srv.startedAt) ++ srv.guid.take 4 ++ bytes 4 label.length ++ zeros 2 ++
      label)
  else if cls = 3 then
    match stat with
    | none => .error .notSupported
    | some s =>
      .ok (sectors s.totalBytes ++ sectors s.availBytes ++ bytes 4 1 ++ bytes 4 sector)
  else if cls = 4 then .ok (bytes 4 7 ++ zeros 4)
  else if cls = 5 then
    let label := utf16Bytes filesystemName
    .ok (bytes 4 0x00040006 ++ bytes 4 (max ((stat.map (·.nameMax.toNat)).getD 255) 255) ++
      bytes 4 label.length ++ label)
  else if cls = 7 then
    match stat with
    | none => .error .notSupported
    | some s =>
      .ok (sectors s.totalBytes ++ sectors s.availBytes ++ sectors s.freeBytes ++ bytes 4 1 ++
        bytes 4 sector)
  else if cls = 11 then
    .ok (bytes 4 sector ++ bytes 4 sector ++ bytes 4 sector ++ bytes 4 sector ++ zeros 12)
  else .error .invalidInfoClass

def filesystemInfo (cls : UInt8) (name : Path) : Action φ Bytes := do
  let stat ← volumeStat srv name
  orThrow (volumeData srv cls stat)

def queryInfoResponse (data : Bytes) (max : ℕ) : Action φ Reply := do
  refuse (data.length > max) .infoLengthMismatch
  pure (ok (bufferResponse data))

def infoData (infoType cls : UInt8) (r : OpenHandle) (info : FileInfo) : Action φ Bytes :=
  if infoType = infoFile then require (fileInfo cls r info r.path r.deleteOnClose) .invalidInfoClass
  else if infoType = infoFilesystem then filesystemInfo srv cls r.path
  else throw .invalidInfoClass

def queryInfo (m : Message) : Action φ Reply := do
  refuse (m.body.length < 40 ∨ uint16 m.body 0 ≠ 41) .invalidParameter
  let maxOut := min (uint32 m.body 4).toNat srv.maxTransact
  let infoType := m.body.getD 2 0
  let cls := m.body.getD 3 0
  let h ← openFor c m 24
  if infoType = infoSecurity then queryInfoResponse fixedSecurityDescriptor maxOut
  else do
    let f ← fileOf h
    let stat ← call (srv.fs.fileStat f)
    let info ← fsOk stat
    let r ← getHandle h
    let data ← infoData srv infoType cls r info
    queryInfoResponse data maxOut

def setBasicInfo (r : OpenHandle) (data : Bytes) : Action φ Unit := do
  let setfs ← require (if data.length < 40 then none else srv.fs.setStat) .notSupported
  let atime := (windowsTime (uint64 data 8)).orElse fun _ => r.info.modTime
  let mtime := (windowsTime (uint64 data 16)).orElse fun _ => r.info.modTime
  let timed ← call (setfs.chtimes r.path atime mtime)
  fsOk timed
  let attrs := uint32 data 32
  if attrs = 0 then pure ()
  else do
    let mode := if attrs &&& 1 ≠ 0 then r.info.perm &&& ~~~anyWrite else r.info.perm ||| ownerWrite
    let changed ← call (setfs.chmod r.path mode)
    fsOk changed

def renameTarget (data : Bytes) : Except Status Path :=
  if data.length < 20 then .error .invalidParameter
  else
    let nameLen := (uint32 data 16).toNat
    if 20 + nameLen > data.length then .error .invalidParameter
    else
      match smbPath srv.lib.toUpper ((data.drop 20).take nameLen) with
      | none => .error .objectNameInvalid
      | some newName => .ok newName

/-- Without the replace flag nothing may be at the new name. -/
def refuseExisting (data : Bytes) (newName : Path) : Action φ Unit :=
  if data.getD 0 0 = 0 then do
    let stat ← call (srv.fs.stat newName)
    refuse stat.toOption.isSome .objectNameCollision
  else pure ()

def setRename (r : OpenHandle) (data : Bytes) : Action φ Unit := do
  refuse (¬ (accessKinds r.access).2.2) .accessDenied
  let newName ← orThrow (renameTarget srv data)
  refuseExisting srv data newName
  let renamed ← call (srv.fs.rename r.path newName)
  fsOk renamed
  locked fun st => ((), renameOpens st r.path newName)

def setDispositionInfo (h : HandleRef) (r : OpenHandle) (data : Bytes) : Action φ Unit := do
  refuse (¬ (accessKinds r.access).2.2) .accessDenied
  refuse (data.length < 1) .invalidParameter
  let pending := data.getD 0 0 &&& 1 != 0
  refuse (pending ∧ r.info.isDir ∧ srv.fs.remove.isNone) .notSupported
  locked fun st => ((), setDisposition st h pending)

def setEndOfFile (r : OpenHandle) (data : Bytes) : Action φ Unit := do
  let setfs ← require (if data.length < 8 then none else srv.fs.setStat) .notSupported
  let size := (uint64 data 0).toNat
  refuse (size > maxInt64) .invalidParameter
  let truncated ← call (setfs.truncate r.path size)
  fsOk truncated

def setClass (h : HandleRef) (r : OpenHandle) (cls : UInt8) (data : Bytes) : Action φ Unit :=
  if cls = 4 then setBasicInfo srv r data
  else if cls = 10 ∨ cls = 65 then setRename srv r data
  else if cls = 13 ∨ cls = 64 then setDispositionInfo srv h r data
  else if cls = 20 then setEndOfFile srv r data
  else throw .invalidInfoClass

def setInfo (m : Message) : Action φ Reply := do
  refuse (m.body.length < 32 ∨ uint16 m.body 0 ≠ 33 ∨ m.body.getD 2 0 ≠ infoFile) .invalidParameter
  let cls := m.body.getD 3 0
  let data ← require (m.slice (uint16 m.body 8).toNat (uint32 m.body 4).toNat srv.maxTransact)
    .invalidParameter
  let h ← openFor c m 16
  let r ← getHandle h
  setClass srv h r cls data
  pure (ok (bytes 2 2))

end Info

section Directories

variable {φ : Type} (srv : Server φ) (c : ConnRef)

/-- The walk of the pattern match: `star` is the pattern after the last star and the name it was
reached at. A mismatch after a star gives the star one more character, so the pairs of remaining
lengths go down and the fuel of the caller is enough. -/
def dosWalk : ℕ → Name → Name → Option (Name × Name) → Bool
  | 0, _, _, _ => false
  | _ + 1, p, [], _ => p.all (· = '*')
  | fuel + 1, p, n :: ns, star =>
    match p with
    | '*' :: ps =>
      if n = '*' then dosWalk fuel ps ns star else dosWalk fuel ps (n :: ns) (some (ps, n :: ns))
    | x :: ps =>
      if x = '?' ∨ x = n then dosWalk fuel ps ns star
      else
        match star with
        | some (sp, _ :: mark) => dosWalk fuel sp mark (some (sp, mark))
        | _ => false
    | [] =>
      match star with
      | some (sp, _ :: mark) => dosWalk fuel sp mark (some (sp, mark))
      | _ => false

def dosMatch (pattern name : Name) : Bool :=
  let p := srv.lib.toUpper pattern
  let n := srv.lib.toUpper name
  dosWalk ((p.length + 2) * (n.length + 2)) p n none

/-- Reads a directory in batches until its end, with a limit on the entries. -/
def readDirectory (f : FileRef) (limit : ℕ) : ℕ → List FileInfo →
    Action φ (Except Status (List FileInfo))
  | 0, _ => pure (.error .unsuccessful)
  | fuel + 1, entries => do
    let (batch, err) ← call (srv.fs.readdir f (min 1024 (limit + 1 - entries.length)))
    let entries := entries ++ batch
    if entries.length > limit then pure (.error .insufficientResources)
    else
      match err with
      | some .eof => pure (.ok entries)
      | some e => pure (.error (fsStatus e))
      | none =>
        if batch = [] then pure (.error .unsuccessful) else readDirectory f limit fuel entries

def takeSnapshot (r : OpenHandle) (pattern : Name) : Action φ Unit := do
  let limit := srv.directoryLimit
  let opened ← call (srv.fs.openFile r.path ⟨.readOnly, false, false, false⟩)
  let f ← fsOk opened
  let listing ← readDirectory srv f limit (limit + 2) []
  closeFile srv f
  let entries ← orThrow listing
  let all := syntheticInfo ['.'] :: syntheticInfo ['.', '.'] :: entries
  let snap : DirSnapshot := ⟨all.filter fun e => dosMatch srv pattern e.name, pattern, 0, false⟩
  let st ← tables
  refuse ((st.session r.session).snapshots.entries.length ≥ maxDirectorySnapshots ∧
    (st.session r.session).snapshots.lookup r.id = none) .insufficientResources
  updateSession r.session fun rec => { rec with snapshots := rec.snapshots.insert r.id snap }

/-- A listing is taken anew on request, at the first call and when the pattern changes. -/
def refreshSnapshot (r : OpenHandle) (restart : Prop) [Decidable restart] (pattern : Name) :
    Action φ Unit := do
  let st ← tables
  let old := (st.session r.session).snapshots.lookup r.id
  if restart ∨ ¬ old.any (fun snap => srv.lib.equalFold snap.pattern pattern) then
    takeSnapshot srv r pattern
  else pure ()

def decodePattern (m : Message) : Option Name :=
  match m.slice (uint16 m.body 24).toNat (uint16 m.body 26).toNat maxPathBytes with
  | none => none
  | some [] => some ['*']
  | some wire => decodeUTF16 wire

/-- The next entries of the listing of an open directory. -/
def listEntries (m : Message) (r : OpenHandle) (pattern : Name) : Action φ Reply := do
  let flags := m.body.getD 3 0
  refreshSnapshot srv r (flags &&& 0x11 ≠ 0) pattern
  let st ← tables
  let snap ← require ((st.session r.session).snapshots.lookup r.id) .fileClosed
  let start :=
    if flags &&& 0x04 ≠ 0 then min (uint32 m.body 4).toNat snap.entries.length else snap.index
  let maxOut := min (uint32 m.body 28).toNat srv.maxTransact
  let listing := fill (m.body.getD 2 0) r.path maxOut (flags &&& 0x02 != 0)
    (snap.entries.zipIdx.drop start) ⟨[], none, 0⟩
  updateSession r.session fun rec => { rec with
    snapshots := rec.snapshots.insert r.id
      { snap with index := start + listing.count, started := true } }
  refuse (listing.out = [] ∧ ¬ snap.started ∧ snap.entries = []) .noSuchFile
  refuse (listing.out = [] ∧ start < snap.entries.length) .bufferOverflow
  refuse (listing.out = []) .noMoreFiles
  pure (ok (bufferResponse listing.out))

def queryDirectory (m : Message) : Action φ Reply := do
  refuse (m.body.length < 32 ∨ uint16 m.body 0 ≠ 33) .invalidParameter
  refuse ((fixedPart (m.body.getD 2 0)).isNone) .invalidInfoClass
  let h ← openFor c m 8
  let r ← getHandle h
  refuse (¬ r.info.isDir) .notADirectory
  let pattern ← require (decodePattern m) .invalidParameter
  listEntries srv m r pattern

end Directories

section Dispatch

variable {φ : Type} (srv : Server φ) (c : ConnRef) (env : Env)

def fsctlValidateNegotiateInfo : UInt32 := 0x00140204

def ioctl (m : Message) : Action φ Reply := do
  refuse (m.body.length < 56 ∨ uint16 m.body 0 ≠ 57) .invalidParameter
  refuse (uint32 m.body 4 ≠ fsctlValidateNegotiateInfo) .notSupported
  let _ ← userSession c m
  let input ← require
    (m.slice (uint32 m.body 24).toNat (uint32 m.body 28).toNat srv.maxTransact) .invalidParameter
  refuse (input.length < 24) .invalidParameter
  let count := (uint16 input 22).toNat
  refuse (count = 0 ∨ 24 + count * 2 > input.length) .invalidParameter
  let conn ← connection c
  let offered := (List.range count).any fun i => uint16 input (24 + i * 2) = conn.dialect
  refuse (uint32 input 0 ≠ conn.clientCapabilities ∨ (input.drop 4).take 16 ≠ conn.clientGUID ∨
    uint16 input 20 ≠ conn.clientSecurityMode ∨ ¬ offered) .accessDenied
  pure (ok (ioctlResponse srv.toConfig fsctlValidateNegotiateInfo ((m.body.drop 8).take 16)
    conn.dialect))

def echo (m : Message) : Action φ Reply := do
  refuse (m.body.length < 4 ∨ uint16 m.body 0 ≠ 4) .invalidParameter
  pure (ok emptyResponse)

/-- The command of a message, once the connection is negotiated. -/
def command (m : Message) : Action φ Reply :=
  if m.hdr.command = cmdEcho then echo m
  else if m.hdr.command = SmbCreditRun.cmdCancel then pure (ok [])
  else if m.hdr.command = cmdSessionSetup then sessionSetup srv c env m
  else if m.hdr.command = cmdLogoff then logoff c m
  else if m.hdr.command = cmdTreeConnect then treeConnect srv c m
  else if m.hdr.command = cmdTreeDisconnect then treeDisconnect srv c m
  else if m.hdr.command = cmdCreate then create srv c m
  else if m.hdr.command = cmdClose then close srv c m
  else if m.hdr.command = cmdFlush then flush srv c m
  else if m.hdr.command = cmdRead then read srv c m
  else if m.hdr.command = cmdWrite then write srv c m
  else if m.hdr.command = cmdLock then lock c m
  else if m.hdr.command = cmdQueryDirectory then queryDirectory srv c m
  else if m.hdr.command = cmdQueryInfo then queryInfo srv c m
  else if m.hdr.command = cmdSetInfo then setInfo srv c m
  else if m.hdr.command = cmdIOCtl then ioctl srv c m
  else throw .notSupported

/-- The first NEGOTIATE claims the one negotiation of the connection, and nothing may precede it. -/
def dispatch (m : Message) : Action φ Reply := do
  refuse (m.hdr.command ≥ cmdCount) .notSupported
  let conn ← connection c
  if m.hdr.command = SmbCreditRun.cmdNegotiate then do
    updateConn c fun conn => { conn with negotiated := true }
    refuse conn.negotiated .invalidParameter
    negotiate srv c env m
  else do
    refuse (conn.dialect = 0) .invalidParameter
    command srv c env m

end Dispatch

end SmbServer
