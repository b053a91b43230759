import FacetFS.SmbSections
import FacetFS.SmbHandlers

/-! # A file system in memory

Names lead to objects and objects hold bytes, so a rename moves names and leaves the bytes alone.
With it and functions in place of the cryptographic ones the server can be run. -/
namespace SmbDisk

open SmbState SmbPath SmbWire SmbResponse SmbServer SmbSections LittleEndian

structure Disk where
  object : Path → Option ℕ
  data : ℕ → Bytes
  opened : FileRef → ℕ
  nextObject : ℕ
  nextFile : FileRef

namespace Disk

def empty : Disk := ⟨fun _ => none, fun _ => [], fun _ => 0, 0, 0⟩

def create (p : Path) (d : Disk) : Disk :=
  { d with
    object := Function.update d.object p (some d.nextObject)
    data := Function.update d.data d.nextObject []
    nextObject := d.nextObject + 1 }

def setData (o : ℕ) (b : Bytes) (d : Disk) : Disk := { d with data := Function.update d.data o b }

def resize (b : Bytes) (n : ℕ) : Bytes := b.take n ++ zeros (n - b.length)

def info (p : Path) (o : ℕ) (d : Disk) : FileInfo :=
  ⟨p.getLast?.getD [], false, (d.data o).length, 0o644, none⟩

def mkdir (p : Path) (d : Disk) : Except FsError Unit × Disk :=
  match d.object p with
  | some _ => (.error .exist, d)
  | none => (.ok (), create p d)

def openObject (o : ℕ) (d : Disk) : Except FsError FileRef × Disk :=
  (.ok d.nextFile,
    { d with opened := Function.update d.opened d.nextFile o, nextFile := d.nextFile + 1 })

def openFile (p : Path) (flags : OpenFlags) (d : Disk) : Except FsError FileRef × Disk :=
  match d.object p with
  | none => if flags.create then openObject d.nextObject (create p d) else (.error .notExist, d)
  | some o =>
    if flags.create ∧ flags.excl then (.error .exist, d)
    else openObject o (if flags.trunc then setData o [] d else d)

def removeAll (p : Path) (d : Disk) : Except FsError Unit × Disk :=
  (.ok (), { d with object := fun q => if p <+: q then none else d.object q })

/-- The names at and below the new name are those that were at and below the old one. -/
def moveNames (p q : Path) (d : Disk) (x : Path) : Option ℕ :=
  if q <+: x then d.object (p ++ x.drop q.length) else if p <+: x then none else d.object x

def rename (p q : Path) (d : Disk) : Except FsError Unit × Disk :=
  match d.object p with
  | none => (.error .notExist, d)
  | some _ => (.ok (), { d with object := moveNames p q d })

def stat (p : Path) (d : Disk) : Except FsError FileInfo × Disk :=
  match d.object p with
  | none => (.error .notExist, d)
  | some o => (.ok (info p o d), d)

def touch (p : Path) (d : Disk) : Except FsError Unit × Disk :=
  match d.object p with
  | none => (.error .notExist, d)
  | some _ => (.ok (), d)

def truncate (p : Path) (n : ℕ) (d : Disk) : Except FsError Unit × Disk :=
  match d.object p with
  | none => (.error .notExist, d)
  | some o => (.ok (), setData o (resize (d.data o) n) d)

def readAt (f : FileRef) (off n : ℕ) (d : Disk) : (Bytes × Option FsError) × Disk :=
  let got := ((d.data (d.opened f)).drop off).take n
  ((got, if got.length < n then some .eof else none), d)

def writeAt (f : FileRef) (b : Bytes) (off : ℕ) (d : Disk) : (ℕ × Option FsError) × Disk :=
  let old := d.data (d.opened f)
  ((b.length, none),
    setData (d.opened f) (resize old off ++ b ++ old.drop (off + b.length)) d)

def fileSystem : FileSystem Disk where
  mkdir := mkdir
  openFile := openFile
  removeAll := removeAll
  rename := rename
  stat := stat
  remove := some removeAll
  setStat := some ⟨fun p _ => touch p, fun p _ _ => touch p, truncate⟩
  statVFS := none
  fileStat f d := (.ok (info [] (d.opened f) d), d)
  readAt := readAt
  writeAt := writeAt
  sync _ := none
  readdir _ _ d := (([], some .eof), d)
  close _ d := d

end Disk

section Serving

def lib : Lib where
  toUpper := id
  equalFold a b := a == b
  isSpace ch := ch = ' '
  hmacMD5 _ _ := zeros 16
  rc4 _ b := b
  hmacSHA256 _ _ := zeros 32
  sha512 _ := zeros 64
  aesCMAC _ _ := some (zeros 16)

def server : Server Disk where
  shareName := []
  serverName := []
  maxReadBytes := 0
  maxWriteBytes := 0
  maxTransactBytes := 0
  maxDirectoryEntries := 0
  requireSigning := false
  guid := zeros 16
  startedAt := none
  lib := lib
  fs := Disk.fileSystem

def negotiated : Conn := { Conn.fresh with dialect := dialect311, signAlg := signAESCMAC }

def world (st : State) (d : Disk) : World Disk := ⟨st, fun _ => negotiated, 1, d, 0, []⟩

def message (command : UInt16) (sessionID : UInt64) (treeID : UInt32) (body : Bytes) : Message :=
  let hdr : Header :=
    ⟨⟨1, command, 1, 0⟩, 0, 0, 0, treeID, sessionID, zeros 16⟩
  ⟨hdr, hdr.encode ++ body, body, none⟩

def setInfoBody (cls : UInt8) (id : FileID) (data : Bytes) : Bytes :=
  bytes 2 33 ++ [1, cls] ++ bytes 4 data.length ++ bytes 2 96 ++ zeros 6 ++ fileIDBytes id ++ data

def renameData (replace : UInt8) (name : Name) : Bytes :=
  replace :: (zeros 15 ++ bytes 4 (utf16Bytes name).length ++ utf16Bytes name)

def env : Env := ⟨[], none, none, none, fun _ _ => none⟩

/-- A handle for a path, with the given access and every share. -/
def record (p : Path) (access : UInt32) : OpenHandle :=
  ⟨⟨0, 0⟩, 0, 1, p, none, noInfo, access, 7, 0, false⟩

/-- A session with id 7 that is authenticated and has the tree 1. -/
def loggedOn : List Section :=
  [.newSession 0 [7], .updateSession 0 { newSessionRecord 7 0 with authenticated := true },
    .treeConnect 0]

def reached (es : List Section) : State :=
  (EventSystem.run enter newServerState es).getD newServerState

def opening (h : HandleRef) (f : FileRef) (p : Path) (access : UInt32) : List Section :=
  [.addHandle 0 (record p access), .commitHandle h f noInfo]

end Serving

section Requests

def wire (command : UInt16) (messageID sessionID : UInt64) (body : Bytes) : Bytes :=
  let hdr : Header := ⟨⟨1, command, 16, messageID⟩, 0, 0, 0, 0, sessionID, zeros 16⟩
  hdr.encode ++ body

def negotiateBody : Bytes := bytes 2 36 ++ bytes 2 1 ++ bytes 2 1 ++ zeros 30 ++ bytes 2 0x0210

def setupBody (token : Bytes) : Bytes :=
  bytes 2 25 ++ [0, 1] ++ zeros 8 ++ bytes 2 88 ++ bytes 2 token.length ++ zeros 8 ++ token

def firstToken : Bytes := ntlmSignature ++ bytes 4 1

def securityBuffer (length offset : ℕ) : Bytes :=
  bytes 2 length ++ bytes 2 length ++ bytes 4 offset

def answerToken (user : Name) : Bytes :=
  ntlmSignature ++ bytes 4 3 ++ securityBuffer 0 0 ++ securityBuffer 44 64 ++ securityBuffer 0 0 ++
    securityBuffer (utf16Bytes user).length 108 ++ securityBuffer 0 0 ++ securityBuffer 0 0 ++
    bytes 4 0 ++ zeros 16 ++ bytes 4 0x101 ++ zeros 24 ++ utf16Bytes user

def treeConnectBody (unc : Name) : Bytes :=
  bytes 2 9 ++ zeros 2 ++ bytes 2 72 ++ bytes 2 (utf16Bytes unc).length ++ utf16Bytes unc

/-- The session id 7 is drawn, and every user has the same password. -/
def logOnEnv : Env := ⟨[7], some (zeros 8), none, none, fun _ _ => some (zeros 16)⟩

end Requests

end SmbDisk
