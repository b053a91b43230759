import FacetFS.FileTree
import FacetFS.WebdavIf

/-! # The WebDAV handler: paths, filesystem calls and preconditions

What the methods share: how a URL becomes path segments, the FileSystem calls, each of which may
also fail for a reason of its own and then changes nothing, the lock table, and the check of the
If header and of the locks that comes before every mutation. -/
namespace WebdavHandler

open ByteText WebdavIf FileTree

abbrev Path := List Text
abbrev Perm := BitVec 9
abbrev FsTree := Tree Text Perm Text

inductive FsError where
  | notExist | permission | exist | invalid | locked | tooManyLocks | crossHost | walkLimit
  | canceled | deadlineExceeded | other
  deriving DecidableEq

def statusOK : ℕ := 200
def statusCreated : ℕ := 201
def statusNoContent : ℕ := 204
def statusBadRequest : ℕ := 400
def statusForbidden : ℕ := 403
def statusNotFound : ℕ := 404
def statusConflict : ℕ := 409
def statusPreconditionFailed : ℕ := 412
def statusLocked : ℕ := 423
def statusInternalServerError : ℕ := 500
def statusBadGateway : ℕ := 502
def statusInsufficientStorage : ℕ := 507

/-- The status an error is answered with; a request whose context is over gets no answer. -/
def writeError : FsError → Option ℕ
  | .notExist => some statusNotFound
  | .permission => some statusForbidden
  | .exist => some statusConflict
  | .invalid => some statusBadRequest
  | .locked => some statusLocked
  | .tooManyLocks => some statusLocked
  | .crossHost => some statusBadGateway
  | .walkLimit => some statusInsufficientStorage
  | .canceled => none
  | .deadlineExceeded => none
  | .other => some statusInternalServerError

/-- A parsed URL. -/
structure URL where
  scheme : Text
  user : Bool
  host : Text
  path : Text
  escapedPath : Text
  fragment : Text

/-- The calls a request makes on the FileSystem; a directory is read page by page and a file
chunk by chunk. -/
inductive FsCall where
  | stat (p : Path)
  | openRead (p : Path)
  | readdir (p : Path) (page : ℕ)
  | removeAll (p : Path)
  | mkdir (p : Path)
  | openWrite (p : Path)
  | read (p : Path) (chunk : ℕ)
  | write (p : Path) (chunk : ℕ)
  | close (p : Path)
  | rename (p q : Path)
  deriving DecidableEq

/-- What a request meets outside the handler: how texts parse as URLs, which FileSystem calls
fail, the modification times, and the clock at its first and second look at the locks. A path
that exists is not reported as missing. -/
structure Env where
  parseURL : Text → Option URL
  fault : FsCall → Option FsError
  honest : ∀ p, fault (.stat p) ≠ some .notExist
  modTime : Path → Int
  now : ℕ
  later : ℕ

structure LockDetails where
  token : Text
  expires : ℕ
  deriving DecidableEq

abbrev MemLS := AList fun _ : Text => LockDetails

structure Handler where
  mountPoint : Text
  maxWalkNodes : Int
  locking : Bool

structure State where
  tree : FsTree
  locks : MemLS

structure Request where
  url : URL
  host : Text
  ifHeader : Text
  destination : Text
  overwrite : Text
  depth : Text

def slash : UInt8 := 0x2f
def backslash : UInt8 := 0x5c

def fsPath (segments : Path) : Text := slash :: join slash segments

namespace Handler

def walkLimit (h : Handler) : ℕ := if h.maxWalkNodes > 0 then h.maxWalkNodes.toNat else 10000

def prefixPath (h : Handler) : Text := fsPath (cleanSegments (split slash h.mountPoint))

end Handler

def validName (name : Text) : Bool :=
  name.length ≤ 255 && name ≠ [] && name ≠ text ['.'] && name ≠ text ['.', '.'] &&
    validString name && slash ∉ name && 0 ∉ name

/-- The path segments a URL names below the handler's mount point. -/
def segments (h : Handler) (u : URL) : Except FsError Path :=
  let escaped := toLower u.escapedPath
  if contains escaped (text ['%', '2', 'f']) || contains escaped (text ['%', '5', 'c']) then
    .error .invalid
  else
    let mount := h.prefixPath
    if mount ≠ [slash] ∧ u.path ≠ mount ∧ hasPrefix u.path (mount ++ [slash]) = false then
      .error .notExist
    else
      let rest := if mount ≠ [slash] then trimPrefix u.path mount else u.path
      let rest := trimByte slash rest
      if rest = [] then .ok []
      else if (split slash rest).all fun s => validName s && backslash ∉ s then
        .ok (split slash rest)
      else .error .invalid

def destinationURL (env : Env) (req : Request) : Except FsError URL :=
  if req.destination = [] then .error .invalid
  else
    match env.parseURL req.destination with
    | none => .error .invalid
    | some u =>
      if u.user || u.fragment ≠ [] then .error .invalid
      else if u.scheme ≠ [] ∧ u.scheme ≠ text ['h', 't', 't', 'p'] ∧
          u.scheme ≠ text ['h', 't', 't', 'p', 's'] then .error .crossHost
      else if u.scheme ≠ [] ∧ equalFold u.host req.host = false then .error .crossHost
      else .ok u

/-- The segments of the Destination header, which may not name the root. -/
def targetOf (h : Handler) (env : Env) (req : Request) : Except FsError Path :=
  match destinationURL env req with
  | .error e => .error e
  | .ok u =>
    match segments h u with
    | .error e => .error e
    | .ok [] => .error .invalid
    | .ok target => .ok target

section FileSystem

structure FileInfo where
  name : Text
  isDir : Bool
  perm : Perm
  size : ℕ
  modTime : Int

def fileSize : Node Perm Text → ℕ
  | .dir _ => 0
  | .file _ data => data.length

def info (env : Env) (p : Path) (n : Node Perm Text) : FileInfo :=
  ⟨p.getLast?.getD [], n.isDir, n.attr, fileSize n, env.modTime p⟩

variable (env : Env) (t : FsTree)

def stat (p : Path) : Except FsError FileInfo :=
  match env.fault (.stat p) with
  | some e => .error e
  | none =>
    match t.node p with
    | none => .error .notExist
    | some n => .ok (info env p n)

def create (p : Path) (n : Node Perm Text) : Except FsError Unit × FsTree :=
  if hp : p ≠ [] then
    if hd : dirAt (t.node p.dropLast) = true then
      if hn : t.node p = none then (.ok (), t.insert p n hp hd hn) else (.error .exist, t)
    else (.error .notExist, t)
  else (.error .invalid, t)

def mkdir (p : Path) (perm : Perm) : Except FsError Unit × FsTree :=
  match env.fault (.mkdir p) with
  | some e => (.error e, t)
  | none => create t p (.dir perm)

def setData (p : Path) (data : Text → Text) : Except FsError Unit × FsTree :=
  match h : t.node p with
  | some (.file a d) => (.ok (), t.write p a d (data d) h)
  | some (.dir _) => (.error .invalid, t)
  | none => (.error .notExist, t)

def openWrite (p : Path) (perm : Perm) : Except FsError Unit × FsTree :=
  match env.fault (.openWrite p) with
  | some e => (.error e, t)
  | none => if t.node p = none then create t p (.file perm []) else setData t p fun _ => []

def openRead (p : Path) : Except FsError (Node Perm Text) :=
  match env.fault (.openRead p) with
  | some e => .error e
  | none =>
    match t.node p with
    | none => .error .notExist
    | some n => .ok n

def writeChunk (p : Path) (i : ℕ) (chunk : Text) : Except FsError Unit × FsTree :=
  match env.fault (.write p i) with
  | some e => (.error e, t)
  | none => setData t p fun d => d ++ chunk

def removeAll (p : Path) : Except FsError Unit × FsTree :=
  match env.fault (.removeAll p) with
  | some e => (.error e, t)
  | none => if hp : p ≠ [] then (.ok (), t.removeAll p hp) else (.error .invalid, t)

/-- Renaming replaces the target, except for a directory that is not empty. -/
def rename (p q : Path) : Except FsError Unit × FsTree :=
  match env.fault (.rename p q) with
  | some e => (.error e, t)
  | none =>
    if h : p ≠ [] ∧ q ≠ [] ∧ ¬ p <+: q then
      if t.node p = none then (.error .notExist, t)
      else if hd : dirAt (t.node q.dropLast) = true then
        if t.children q ≠ [] then (.error .exist, t)
        else (.ok (), t.rename p q h.1 h.2.2 h.2.1 hd)
      else (.error .notExist, t)
    else (.error .invalid, t)

end FileSystem

section Effects

variable {env : Env} {t t' : FsTree} {p q : Path}

theorem create_other (n : Node Perm Text) (hq : q ≠ p) : (create t p n).2.node q = t.node q := by
  unfold create
  split
  · split
    · split
      · exact Function.update_of_ne hq _ _
      · rfl
    · rfl
  · rfl

theorem create_ok {n} (h : create t p n = (.ok (), t')) : t.node p = none ∧ t'.node p = some n := by
  unfold create at h
  split at h
  · split at h
    · split at h
      · rename_i hn
        cases h
        exact ⟨hn, Function.update_self _ _ _⟩
      · cases h
    · cases h
  · cases h

theorem setData_other (data : Text → Text) (hq : q ≠ p) :
    (setData t p data).2.node q = t.node q := by
  unfold setData
  split
  · exact Function.update_of_ne hq _ _
  · rfl
  · rfl

theorem openWrite_other (env : Env) (t : FsTree) (perm : Perm) (hq : q ≠ p) :
    (openWrite env t p perm).2.node q = t.node q := by
  unfold openWrite
  split
  · rfl
  split
  · exact create_other _ hq
  · exact setData_other _ hq

theorem writeChunk_other (env : Env) (t : FsTree) (i : ℕ) (chunk : Text) (hq : q ≠ p) :
    (writeChunk env t p i chunk).2.node q = t.node q := by
  unfold writeChunk
  split
  · rfl
  · exact setData_other _ hq

theorem removeAll_other (env : Env) (t : FsTree) (hq : ¬ p <+: q) :
    (removeAll env t p).2.node q = t.node q := by
  unfold removeAll
  split
  · rfl
  split
  · exact if_neg hq
  · rfl

theorem stat_notExist (h : stat env t p = .error .notExist) : t.node p = none := by
  unfold stat at h
  split at h
  · rename_i he
    cases h
    exact absurd he (env.honest p)
  split at h
  · assumption
  · cases h

theorem stat_ok {fi} (h : stat env t p = .ok fi) : ∃ n, t.node p = some n ∧ fi = info env p n := by
  unfold stat at h
  split at h
  · cases h
  split at h
  · cases h
  rename_i n hn
  cases h
  exact ⟨n, hn, rfl⟩

end Effects

section Preconditions

def entityTag (fi : FileInfo) : Text :=
  text ['"'] ++ hexInt fi.modTime ++ hex fi.size ++ text ['"']

/-- The unexpired lock on a path; an expired one is dropped. -/
def live (locks : MemLS) (root : Text) (now : ℕ) : Option LockDetails × MemLS :=
  match locks.lookup root with
  | none => (none, locks)
  | some held => if held.expires ≤ now then (none, locks.erase root) else (some held, locks)

def holder (now : ℕ) (root : Text) (locks : MemLS) : Option LockDetails × MemLS :=
  live locks root now

/-- The lock on a path that none of the tokens satisfies. -/
def guard (now : ℕ) (root : Text) (tokens : List Text) (locks : MemLS) :
    Option LockDetails × MemLS :=
  match live locks root now with
  | (none, locks) => (none, locks)
  | (some held, locks) => if held.token ∈ tokens then (none, locks) else (some held, locks)

def heldTokens (now : ℕ) : List Text → MemLS → List Text × MemLS
  | [], locks => ([], locks)
  | root :: roots, locks =>
    let (lock, locks) := holder now root locks
    let (rest, locks) := heldTokens now roots locks
    ((lock.map LockDetails.token).toList ++ rest, locks)

def anyGuarded (now : ℕ) (tokens : List Text) : List Text → MemLS → Bool × MemLS
  | [], locks => (false, locks)
  | root :: roots, locks =>
    match guard now root tokens locks with
    | (some _, locks) => (true, locks)
    | (none, locks) => anyGuarded now tokens roots locks

/-- The segments an If tag names, if it names something served here. -/
def tagResolver (h : Handler) (env : Env) (req : Request) (tag : Text) : Option Path :=
  match env.parseURL tag with
  | none => none
  | some u =>
    if u.host ≠ [] ∧ equalFold u.host req.host = false then none
    else (segments h u).toOption

/-- The preconditions of a mutation: the status of a refusal, or none. -/
def checkIf (h : Handler) (env : Env) (req : Request) (now : ℕ) (resource : Path) (etag : Text)
    (governed : List Text) (locks : MemLS) : Option ℕ × MemLS :=
  let tokens := ifTokens req.ifHeader
  let (held, locks) :=
    if req.ifHeader ≠ [] ∧ h.locking then heldTokens now governed locks else ([], locks)
  let target : IfTarget := ⟨resource, (segments h req.url).toOption == some resource, etag, held⟩
  if req.ifHeader ≠ [] ∧ evaluateIf req.ifHeader target (tagResolver h env req) = false then
    (some statusPreconditionFailed, locks)
  else if h.locking then
    match anyGuarded now tokens governed locks with
    | (true, locks) => (some statusLocked, locks)
    | (false, locks) => (none, locks)
  else (none, locks)

end Preconditions

end WebdavHandler
