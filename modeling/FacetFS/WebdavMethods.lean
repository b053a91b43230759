import FacetFS.WebdavCopyMove

/-! # The mutating WebDAV methods

PUT, MKCOL, DELETE, PROPPATCH, LOCK and UNLOCK with the lock table behind them; COPY and MOVE come
from their own module. A new lock is acquired in separate steps, because other requests may run
between them. -/
namespace WebdavMethods

open ByteText WebdavIf FileTree WebdavHandler WebdavCopyMove

def statusMultiStatus : ℕ := 207
def statusMethodNotAllowed : ℕ := 405
def statusRequestEntityTooLarge : ℕ := 413
def statusUnsupportedMediaType : ℕ := 415
def statusNotImplemented : ℕ := 501

section Requests

structure Server extends Handler where
  maxBodyBytes : Int

/-- A request with its body; `bodyError` is how reading the body ends, if not with its end. -/
structure MethodRequest extends Request where
  contentLength : Int
  body : Text
  bodyError : Option FsError
  ifMatch : Text
  ifNoneMatch : Text
  timeout : Text
  lockToken : Text

/-- The lock a LOCK body asks for. -/
structure LockInfo where
  write : Bool
  exclusive : Bool

/-- How bodies parse as XML (a property update by the number of properties it names), and the random
bytes for a token. -/
structure Surroundings extends Env where
  lockInfo : Text → Option LockInfo
  propertyNames : Text → Option ℕ
  random : Option Text

inductive Method where
  | put | mkcol | delete | copy | move | proppatch | lock | unlock
  deriving DecidableEq

def Server.bodyLimit (srv : Server) : ℕ :=
  if srv.maxBodyBytes > 0 then srv.maxBodyBytes.toNat else 2 ^ 30

def readBody (req : MethodRequest) (limit : ℕ) : Except (Option ℕ) Text :=
  if req.body.length > limit then .error (some statusRequestEntityTooLarge)
  else
    match req.bodyError with
    | some _ => .error (writeError .invalid)
    | none => .ok req.body

end Requests

section LockSystem

def second : Int := 10 ^ 9
def minLockDuration : Int := 15 * second
def defaultLockDuration : Int := 5 * 60 * second
def maxLockDuration : Int := 3600 * second
def maxHeldLocks : ℕ := 2 ^ 16

def clampLockDuration (duration : Int) : Int :=
  if duration ≤ 0 then defaultLockDuration
  else if duration < minLockDuration then minLockDuration
  else if duration > maxLockDuration then maxLockDuration
  else duration

def hexDigit (n : ℕ) : UInt8 := UInt8.ofNat (if n < 10 then 48 + n else 87 + n)

def hexBytes (s : Text) : Text := s.flatMap fun b => [hexDigit (b.toNat / 16), hexDigit (b.toNat % 16)]

def newLockToken (buf : Text) : Text :=
  text ['u', 'r', 'n', ':', 'u', 'u', 'i', 'd', ':'] ++
    join 0x2d ([(0, 4), (4, 6), (6, 8), (8, 10), (10, 16)].map fun (i, j) =>
      hexBytes ((buf.take j).drop i))

def dropExpired (now : ℕ) (locks : MemLS) : MemLS :=
  locks.entries.foldl (fun kept e => if e.2.expires ≤ now then kept.erase e.1 else kept) locks

def createLock (now : ℕ) (root : Text) (duration : Int) (random : Option Text) (locks : MemLS) :
    Except FsError LockDetails × MemLS :=
  match live locks root now with
  | (some _, locks) => (.error .locked, locks)
  | (none, locks) =>
    let locks := if locks.entries.length ≥ maxHeldLocks then dropExpired now locks else locks
    if locks.entries.length ≥ maxHeldLocks then (.error .tooManyLocks, locks)
    else
      match random with
      | none => (.error .other, locks)
      | some buf =>
        let details : LockDetails := ⟨newLockToken buf, now + (clampLockDuration duration).toNat⟩
        (.ok details, locks.insert root details)

def matching (now : ℕ) (root token : Text) (locks : MemLS) : Option LockDetails × MemLS :=
  match live locks root now with
  | (none, locks) => (none, locks)
  | (some held, locks) => (if held.token = token then some held else none, locks)

def refresh (now : ℕ) (root token : Text) (duration : Int) (locks : MemLS) :
    Option LockDetails × MemLS :=
  match matching now root token locks with
  | (none, locks) => (none, locks)
  | (some held, locks) =>
    let held := { held with expires := now + (clampLockDuration duration).toNat }
    (some held, locks.insert root held)

def unlockRoot (now : ℕ) (root token : Text) (locks : MemLS) : Bool × MemLS :=
  match matching now root token locks with
  | (none, locks) => (false, locks)
  | (some _, locks) => (true, locks.erase root)

end LockSystem

section Headers

def atoi (s : Text) : Option Int :=
  let (negative, digits) :=
    match s with
    | 0x2d :: rest => (true, rest)
    | 0x2b :: rest => (false, rest)
    | _ => (false, s)
  if digits = [] ∨ ¬ digits.all (fun b => 48 ≤ b && b ≤ 57) then none
  else
    let n : ℕ := digits.foldl (fun n b => 10 * n + (b.toNat - 48)) 0
    let v : Int := if negative then -n else n
    if -2 ^ 63 ≤ v ∧ v < 2 ^ 63 then some v else none

def wrap64 (x : Int) : Int := (x + 2 ^ 63) % 2 ^ 64 - 2 ^ 63

def infiniteTimeout : Int := 3600 * second

def infinite : Text := text ['I', 'n', 'f', 'i', 'n', 'i', 't', 'e']
def secondPrefix : Text := text ['S', 'e', 'c', 'o', 'n', 'd', '-']

def parseTimeout (header : Text) : Int :=
  let fields := (split 0x2c header).map trimSpace
  (fields.findSome? fun field =>
    if equalFold field infinite then some infiniteTimeout
    else if hasPrefix field secondPrefix then
      match atoi (field.drop secondPrefix.length) with
      | some v => if v > 0 then some (wrap64 (v * second)) else none
      | none => none
    else none).getD 0

def star : Text := text ['*']

def strongETagMatches (header etag : Text) : Bool :=
  trimSpace header == star || (split 0x2c header).any fun v => trimSpace v == etag

def weakETagMatches (header etag : Text) : Bool :=
  trimSpace header == star || (split 0x2c header).any fun v => trimPrefix (trimSpace v) weak == etag

/-- The If-Match and If-None-Match headers allow the write. -/
def writeConditions (req : MethodRequest) (found : Bool) (etag : Text) : Bool :=
  !(req.ifMatch ≠ [] && (!found || !strongETagMatches req.ifMatch etag)) &&
    !(req.ifNoneMatch ≠ [] && found && weakETagMatches req.ifNoneMatch etag)

def firstIfToken (header : Text) : Text := (ifTokens header).headD []

def codedURL (header : Text) : Text :=
  let header := trimSpace header
  if header.length < 2 ∨ header.head? ≠ some langle ∨ header.getLast? ≠ some rangle then []
  else (header.drop 1).dropLast

end Headers

section Methods

variable (srv : Server) (env : Surroundings) (req : MethodRequest)

def statInfo (t : FsTree) (p : Path) : Except FsError (Option FileInfo) :=
  match stat env.toEnv t p with
  | .ok fi => .ok (some fi)
  | .error .notExist => .ok none
  | .error e => .error e

def putChunks (p : Path) : ℕ → List Text → FsTree → Except FsError Unit × FsTree
  | _, [], t => (.ok (), t)
  | i, chunk :: rest, t =>
    match writeChunk env.toEnv t p i chunk with
    | (.error e, t) => (.error e, t)
    | (.ok (), t) => putChunks p (i + 1) rest t

/-- Why a body was not stored. -/
inductive PutError where
  | tooLarge
  | failed (e : FsError)

def PutError.status : PutError → Option ℕ
  | .tooLarge => some statusRequestEntityTooLarge
  | .failed e => writeError e

def storeBody (p : Path) (t : FsTree) : Except PutError Unit × FsTree :=
  match putChunks env p 0 (pages 32768 (req.body.take srv.bodyLimit)) t with
  | (.error e, t) => (.error (.failed e), t)
  | (.ok (), t) =>
    if req.body.length > srv.bodyLimit then (.error .tooLarge, t)
    else
      match req.bodyError with
      | some e => (.error (.failed e), t)
      | none =>
        match env.fault (.close p) with
        | some e => (.error (.failed e), t)
        | none => (.ok (), t)

def putLocks (fi : Option FileInfo) (segments : Path) : List Text :=
  fsPath segments.dropLast :: if fi.isSome then [fsPath segments] else []

def isCollection : Option FileInfo → Bool
  | some fi => fi.isDir
  | none => false

def put (st : State) (segments : Path) : Option ℕ × State :=
  if segments = [] then (writeError .invalid, st)
  else
    match statInfo env st.tree segments with
    | .error e => (writeError e, st)
    | .ok fi =>
      if isCollection fi then (writeError .invalid, st)
      else
        match checkIf srv.toHandler env.toEnv req.toRequest env.now segments (destinationTag fi)
          (putLocks fi segments) st.locks with
        | (some status, locks) => (some status, { st with locks := locks })
        | (none, locks) =>
          if writeConditions req fi.isSome (destinationTag fi) = false then
            (some statusPreconditionFailed, { st with locks := locks })
          else
            match openWrite env.toEnv st.tree segments 0o644 with
            | (.error e, t) =>
              (if fi.isNone ∧ e = .notExist then some statusConflict else writeError e, ⟨t, locks⟩)
            | (.ok (), t) =>
              match storeBody srv env req segments t with
              | (.error e, t) => (e.status, ⟨t, locks⟩)
              | (.ok (), t) => (some (doneStatus fi), ⟨t, locks⟩)

def mkcolStatus : FsError → Option ℕ
  | .exist => some statusMethodNotAllowed
  | .notExist => some statusConflict
  | e => writeError e

def mkcol (st : State) (segments : Path) : Option ℕ × State :=
  if req.contentLength ≠ 0 then (some statusUnsupportedMediaType, st)
  else if segments = [] then (writeError .invalid, st)
  else
    match checkIf srv.toHandler env.toEnv req.toRequest env.now segments []
      [fsPath segments.dropLast] st.locks with
    | (some status, locks) => (some status, { st with locks := locks })
    | (none, locks) =>
      match mkdir env.toEnv st.tree segments 0o755 with
      | (.error e, t) => (mkcolStatus e, ⟨t, locks⟩)
      | (.ok (), t) => (some statusCreated, ⟨t, locks⟩)

def remove (st : State) (segments : Path) : Option ℕ × State :=
  if segments = [] then (writeError .invalid, st)
  else
    match stat env.toEnv st.tree segments with
    | .error e => (writeError e, st)
    | .ok fi =>
      match checkIf srv.toHandler env.toEnv req.toRequest env.now segments (entityTag fi)
        [fsPath segments, fsPath segments.dropLast] st.locks with
      | (some status, locks) => (some status, { st with locks := locks })
      | (none, locks) =>
        match removeAll env.toEnv st.tree segments with
        | (.error e, t) => (writeError e, ⟨t, locks⟩)
        | (.ok (), t) => (some statusNoContent, ⟨t, locks⟩)

def maxPropfindBody : ℕ := 2 ^ 20

def proppatch (st : State) (segments : Path) : Option ℕ × State :=
  match readBody req maxPropfindBody with
  | .error status => (status, st)
  | .ok body =>
    match stat env.toEnv st.tree segments with
    | .error e => (writeError e, st)
    | .ok fi =>
      match checkIf srv.toHandler env.toEnv req.toRequest env.now segments (entityTag fi)
        [fsPath segments] st.locks with
      | (some status, locks) => (some status, { st with locks := locks })
      | (none, locks) =>
        match env.propertyNames body with
        | none => (writeError .invalid, { st with locks := locks })
        | some 0 => (writeError .invalid, { st with locks := locks })
        | some (_ + 1) => (some statusMultiStatus, { st with locks := locks })

end Methods

section Locking

variable (srv : Server) (env : Surroundings) (req : MethodRequest)

/-- Where a LOCK stands after it looked at its path. -/
inductive LockStart where
  | answered (status : Option ℕ)
  | mapped
  | unmapped

/-- Creating a resource adds a member, so a lock on the collection governs it. -/
def lockStat (st : State) (segments : Path) : LockStart × State :=
  match statInfo env st.tree segments with
  | .error e => (.answered (writeError e), st)
  | .ok (some _) => (.mapped, st)
  | .ok none =>
    if segments = [] then (.answered (writeError .invalid), st)
    else
      match checkIf srv.toHandler env.toEnv req.toRequest env.now segments []
        [fsPath segments.dropLast] st.locks with
      | (some status, locks) => (.answered (some status), { st with locks := locks })
      | (none, locks) => (.unmapped, { st with locks := locks })

/-- An empty resource to carry the lock; the path must still be free. -/
def createEmpty (t : FsTree) (p : Path) : Except FsError Unit × FsTree :=
  match env.fault (.openWrite p) with
  | some e => (.error e, t)
  | none =>
    match create t p (.file 0o644 []) with
    | (.error e, t) => (.error e, t)
    | (.ok (), t) =>
      match env.fault (.close p) with
      | some e => (.error e, t)
      | none => (.ok (), t)

def discardEmpty (t : FsTree) (p : Path) : FsTree := (removeAll env.toEnv t p).2

def acquire (segments : Path) (locks : MemLS) : Except FsError LockDetails × MemLS :=
  createLock env.later (fsPath segments) (parseTimeout req.timeout) env.random locks

/-- A resource that was there gets the lock or an error. -/
def lockMapped (st : State) (segments : Path) : Option ℕ × State :=
  match acquire env req segments st.locks with
  | (.error e, locks) => (writeError e, { st with locks := locks })
  | (.ok _, locks) => (some statusOK, { st with locks := locks })

def lockCreated (st : State) (segments : Path) : Option ℕ × State :=
  match acquire env req segments st.locks with
  | (.error e, locks) => (writeError e, ⟨discardEmpty env st.tree segments, locks⟩)
  | (.ok _, locks) => (some statusCreated, { st with locks := locks })

def lockNew (st : State) (segments : Path) : Option ℕ × State :=
  match lockStat srv env req st segments with
  | (.answered status, st) => (status, st)
  | (.mapped, st) => lockMapped env req st segments
  | (.unmapped, st) =>
    match createEmpty env st.tree segments with
    | (.error e, t) => (writeError e, { st with tree := t })
    | (.ok (), t) => lockCreated env req { st with tree := t } segments

def refreshLock (st : State) (segments : Path) : Option ℕ × State :=
  if firstIfToken req.ifHeader = [] then (writeError .invalid, st)
  else
    match stat env.toEnv st.tree segments with
    | .error e => (writeError e, st)
    | .ok _ =>
      match refresh env.now (fsPath segments) (firstIfToken req.ifHeader) (parseTimeout req.timeout)
        st.locks with
      | (none, locks) => (some statusPreconditionFailed, { st with locks := locks })
      | (some _, locks) => (some statusOK, { st with locks := locks })

def maxLockBody : ℕ := 2 ^ 16

/-- The body of a LOCK asks for an exclusive write lock, or is empty to refresh one. -/
def lock (st : State) (segments : Path) : Option ℕ × State :=
  match readBody req maxLockBody with
  | .error status => (status, st)
  | .ok body =>
    if trimSpace body = [] then refreshLock env req st segments
    else
      match env.lockInfo body with
      | none => (writeError .invalid, st)
      | some info =>
        if info.write = false then (writeError .invalid, st)
        else if info.exclusive = false then (some statusNotImplemented, st)
        else if req.depth ≠ [] ∧ req.depth ≠ depthZero then (writeError .invalid, st)
        else lockNew srv env req st segments

def unlock (st : State) (segments : Path) : Option ℕ × State :=
  if codedURL req.lockToken = [] then (writeError .invalid, st)
  else
    match stat env.toEnv st.tree segments with
    | .error e => (writeError e, st)
    | .ok _ =>
      match unlockRoot env.now (fsPath segments) (codedURL req.lockToken) st.locks with
      | (false, locks) => (some statusConflict, { st with locks := locks })
      | (true, locks) => (some statusNoContent, { st with locks := locks })

/-- A handler without a lock system has no LOCK and UNLOCK. -/
def handle (method : Method) (st : State) (segments : Path) : Option ℕ × State :=
  match method with
  | .put => put srv env req st segments
  | .mkcol => mkcol srv env req st segments
  | .delete => remove srv env req st segments
  | .copy => copy srv.toHandler env.toEnv req.toRequest st segments
  | .move => move srv.toHandler env.toEnv req.toRequest st segments
  | .proppatch => proppatch srv env req st segments
  | .lock =>
    if srv.locking then lock srv env req st segments else (some statusMethodNotAllowed, st)
  | .unlock =>
    if srv.locking then unlock env req st segments else (some statusMethodNotAllowed, st)

def serveHTTP (method : Method) (st : State) : Option ℕ × State :=
  match segments srv.toHandler req.url with
  | .error e => (writeError e, st)
  | .ok segments => handle srv env req method st segments

end Locking

end WebdavMethods
