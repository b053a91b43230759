import FacetFS.SmbWire

/-! # Response bodies

The byte layout of every response: negotiation, the NTLM challenge and its SPNEGO wrapper, file and
directory information. Times and sizes are encoded as the source encodes them, in 64 bits. -/
namespace SmbResponse

open SmbState SmbPath SmbWire LittleEndian

def statusCode : Status → ℕ
  | .success => 0x00000000
  | .noMoreFiles => 0x80000006
  | .bufferOverflow => 0x80000005
  | .invalidInfoClass => 0xC0000003
  | .infoLengthMismatch => 0xC0000004
  | .invalidParameter => 0xC000000D
  | .noSuchFile => 0xC000000F
  | .endOfFile => 0xC0000011
  | .moreProcessingRequired => 0xC0000016
  | .accessDenied => 0xC0000022
  | .objectNameInvalid => 0xC0000033
  | .objectNameNotFound => 0xC0000034
  | .objectNameCollision => 0xC0000035
  | .sharingViolation => 0xC0000043
  | .deletePending => 0xC0000056
  | .lockNotGranted => 0xC0000055
  | .rangeNotLocked => 0xC000007E
  | .diskFull => 0xC000007F
  | .insufficientResources => 0xC000009A
  | .mediaWriteProtected => 0xC00000A2
  | .fileIsADirectory => 0xC00000BA
  | .notSupported => 0xC00000BB
  | .networkNameDeleted => 0xC00000C9
  | .badNetworkName => 0xC00000CC
  | .directoryNotEmpty => 0xC0000101
  | .notADirectory => 0xC0000103
  | .cancelled => 0xC0000120
  | .fileClosed => 0xC0000128
  | .logonFailure => 0xC000006D
  | .userSessionDeleted => 0xC0000203
  | .unsuccessful => 0xC0000001

def zeros (n : ℕ) : Bytes := List.replicate n 0

def align8 (n : ℕ) : ℕ := (n + 7) / 8 * 8

def pad8 (b : Bytes) : Bytes := b ++ zeros (align8 b.length - b.length)

section Configuration

/-- The settings of a server. An empty name or a zero limit stands for the default. -/
structure Config where
  shareName : Name
  serverName : Name
  maxReadBytes : UInt32
  maxWriteBytes : UInt32
  maxTransactBytes : UInt32
  maxDirectoryEntries : ℕ
  requireSigning : Bool
  guid : Bytes
  startedAt : Option Int

def defaultMaxIO : ℕ := 1048576
def defaultDirEntries : ℕ := 100000
def defaultShareName : Name := ['s', 'h', 'a', 'r', 'e']
def defaultServerName : Name := ['F', 'A', 'C', 'E', 'T', 'F', 'S']
def maxFrameBytes : ℕ := 16777215
def frameHeadroom : ℕ := 65536

def ioLimit (v : UInt32) : ℕ :=
  if v > 0 then min v.toNat (maxFrameBytes - frameHeadroom) else defaultMaxIO

namespace Config

variable (cfg : Config)

def maxRead : ℕ := ioLimit cfg.maxReadBytes
def maxWrite : ℕ := ioLimit cfg.maxWriteBytes
def maxTransact : ℕ := ioLimit cfg.maxTransactBytes
def share : Name := if cfg.shareName = [] then defaultShareName else cfg.shareName
def server : Name := if cfg.serverName = [] then defaultServerName else cfg.serverName

def directoryLimit : ℕ :=
  if cfg.maxDirectoryEntries = 0 then defaultDirEntries else cfg.maxDirectoryEntries

def securityMode : UInt16 :=
  if cfg.requireSigning then signingEnabled ||| signingRequired else signingEnabled

end Config

end Configuration

section Times

def fileTimeEpoch : ℕ := 116444736000000000

/-- A time as the number of 100 ns steps since 1601; the zero time and earlier ones are zero. -/
def fileTime : Option Int → ℕ
  | none => 0
  | some ns => (ns.tdiv 100 + fileTimeEpoch).toNat

def windowsTime (v : UInt64) : Option Int :=
  if v = 0 ∨ v = 0xFFFFFFFFFFFFFFFF ∨ v.toNat < fileTimeEpoch then none
  else some (BitVec.ofNat 64 ((v.toNat - fileTimeEpoch) * 100)).toInt

end Times

section Negotiation

def contextPreauthIntegrity : UInt16 := 0x0001
def contextSigning : UInt16 := 0x0008
def hashSHA512 : UInt16 := 0x0001
def preauthSaltSize : ℕ := 32
def capLargeMTU : ℕ := 0x00000004
def dialectSMB2Wildcard : UInt16 := 0x02FF

def spnegoNegTokenInit : Bytes :=
  [0x60, 0x1c, 0x06, 0x06, 0x2b, 0x06, 0x01, 0x05, 0x05, 0x02, 0xa0, 0x12, 0x30, 0x10, 0xa0, 0x0e,
    0x30, 0x0c, 0x06, 0x0a, 0x2b, 0x06, 0x01, 0x04, 0x01, 0x82, 0x37, 0x02, 0x02, 0x0a]

def appendContext (b : Bytes) (ctype : UInt16) (data : Bytes) : Bytes :=
  pad8 b ++ bytes 2 ctype.toNat ++ bytes 2 data.length ++ zeros 4 ++ data

/-- Every context takes at least eight bytes, so the length is fuel enough. -/
def countContextsFrom (b : Bytes) : ℕ → ℕ → ℕ
  | 0, _ => 0
  | fuel + 1, pos =>
    if pos + 8 ≤ b.length then
      1 + countContextsFrom b fuel (align8 (pos + 8 + (uint16 b (pos + 2)).toNat))
    else 0

def countContexts (b : Bytes) : ℕ := countContextsFrom b b.length 0

def answeringContexts (signAlg : UInt16) (salt : Bytes) : Bytes :=
  let preauth := appendContext [] contextPreauthIntegrity
    (bytes 2 1 ++ bytes 2 preauthSaltSize ++ bytes 2 hashSHA512.toNat ++ salt)
  appendContext preauth contextSigning (bytes 2 1 ++ bytes 2 signAlg.toNat)

/-- The body before the contexts, without their offset. -/
def negotiateFixed (cfg : Config) (dialect : UInt16) (contexts : Bytes) (now : Option Int) : Bytes :=
  bytes 2 65 ++ bytes 2 cfg.securityMode.toNat ++ bytes 2 dialect.toNat ++
    bytes 2 (countContexts contexts) ++ cfg.guid ++ bytes 4 capLargeMTU ++
    bytes 4 cfg.maxTransact ++ bytes 4 cfg.maxRead ++ bytes 4 cfg.maxWrite ++
    bytes 8 (fileTime now) ++ bytes 8 (fileTime cfg.startedAt) ++ bytes 2 (headerSize + 64) ++
    bytes 2 spnegoNegTokenInit.length ++ zeros 4 ++ spnegoNegTokenInit

/-- The header has a multiple of eight bytes, so padding the body aligns the contexts. -/
def negotiateResponse (cfg : Config) (dialect : UInt16) (contexts : Bytes) (now : Option Int) :
    Bytes :=
  let body := negotiateFixed cfg dialect contexts now
  if contexts = [] then body
  else put (pad8 body) 60 (bytes 4 (headerSize + (pad8 body).length)) ++ contexts

end Negotiation

section Authentication

def appendAV (dst : Bytes) (id : ℕ) (value : Bytes) : Bytes :=
  dst ++ bytes 2 id ++ bytes 2 value.length ++ value

def securityBuffer (n offset : ℕ) : Bytes := bytes 2 n ++ bytes 2 n ++ bytes 4 offset

/-- Unicode, target, signing, NTLM, extended security, target info, 128 and 56 bits, key exchange. -/
def ntlmFlags : ℕ := 0xE08A8215

def ntlmChallenge (server : Name) (challenge : Bytes) (now : Option Int) : Bytes :=
  let target := utf16Bytes server
  let info := appendAV (appendAV (appendAV (appendAV [] 1 target) 2 target) 7
    (bytes 8 (fileTime now))) 0 []
  ntlmSignature ++ bytes 4 2 ++ securityBuffer target.length 48 ++ bytes 4 ntlmFlags ++ challenge ++
    zeros 8 ++ securityBuffer info.length (48 + target.length) ++ target ++ info

def derLength (n : ℕ) : Bytes :=
  if n < 0x80 then [UInt8.ofNat n]
  else if n ≤ 0xff then [0x81, UInt8.ofNat n]
  else [0x82, UInt8.ofNat (n / 256), UInt8.ofNat n]

def der (tag : UInt8) (content : Bytes) : Bytes := tag :: (derLength content.length ++ content)

def ntlmOID : Bytes := [0x06, 0x0a, 0x2b, 0x06, 0x01, 0x04, 0x01, 0x82, 0x37, 0x02, 0x02, 0x0a]

def spnegoChallenge (token : Bytes) : Bytes :=
  der 0xa1 (der 0x30 (der 0xa0 [0x0a, 0x01, 0x01] ++ der 0xa1 ntlmOID ++ der 0xa2 (der 0x04 token)))

def spnegoComplete : Bytes := der 0xa1 (der 0x30 (der 0xa0 [0x0a, 0x01, 0x00]))

def sessionSetupResponse (token : Bytes) : Bytes :=
  if token = [] then bytes 2 9 ++ zeros 6
  else bytes 2 9 ++ zeros 2 ++ bytes 2 (headerSize + 8) ++ bytes 2 token.length ++ token

end Authentication

section Information

def ownerWrite : BitVec 9 := 0o200
def anyWrite : BitVec 9 := 0o222

def fileAttributes (info : FileInfo) : ℕ :=
  (if info.isDir then 0x10 else 0x20) + if info.perm &&& anyWrite = 0 then 0x01 else 0

def fileTimes (info : FileInfo) : Bytes :=
  let t := bytes 8 (fileTime info.modTime)
  t ++ t ++ t ++ t

def allocationSize (info : FileInfo) : Bytes :=
  bytes 8 (if info.size > 0 then (info.size.toNat + 4095) / 4096 * 4096 else 0)

def endOfFile (info : FileInfo) : Bytes := bytes 8 (if info.size > 0 then info.size.toNat else 0)

def flagByte (b : Bool) : UInt8 := if b then 1 else 0

def pathText : Path → Name
  | [] => ['/']
  | p => p.flatMap fun s => '/' :: s

def utf8 (s : Name) : Bytes := (String.ofList s).toUTF8.toList

def fileIndex (name : Name) : UInt64 :=
  (utf8 name).foldl (fun h b => (h ^^^ b.toUInt64) * 0x100000001b3) 0xcbf29ce484222325

def fileIDBytes (id : FileID) : Bytes := bytes 8 id.low.toNat ++ bytes 8 id.high.toNat

def createResponse (id : FileID) (info : FileInfo) (action : ℕ) : Bytes :=
  bytes 2 89 ++ zeros 2 ++ bytes 4 action ++ fileTimes info ++ allocationSize info ++
    endOfFile info ++ bytes 4 (fileAttributes info) ++ zeros 4 ++ fileIDBytes id ++ zeros 8

def closeResponse : Option FileInfo → Bytes
  | none => bytes 2 60 ++ zeros 58
  | some info =>
    bytes 2 60 ++ bytes 2 1 ++ zeros 4 ++ fileTimes info ++ allocationSize info ++
      endOfFile info ++ bytes 4 (fileAttributes info)

def readResponse (data : Bytes) : Bytes :=
  bytes 2 17 ++ [UInt8.ofNat (headerSize + 16), 0] ++ bytes 4 data.length ++ zeros 8 ++ data

def writeResponse (written : ℕ) : Bytes := bytes 2 17 ++ zeros 2 ++ bytes 4 written ++ zeros 8

/-- The body of a response with nothing but its size in it. -/
def emptyResponse : Bytes := bytes 2 4 ++ zeros 2

def treeConnectResponse : Bytes := bytes 2 16 ++ [1] ++ zeros 9 ++ bytes 4 0x001f01ff

def bufferResponse (data : Bytes) : Bytes :=
  bytes 2 9 ++ bytes 2 (headerSize + 8) ++ bytes 4 data.length ++ data

def errorResponse : Bytes := bytes 2 9 ++ zeros 7

def wireName (name : Path) : Bytes :=
  utf16Bytes ((pathText name).map fun ch => if ch = '/' then backslash else ch)

def fileInfo (cls : UInt8) (r : OpenHandle) (info : FileInfo) (name : Path)
    (pendingDelete : Bool) : Option Bytes :=
  let wire := wireName name
  let index := bytes 8 (fileIndex (pathText name)).toNat
  let attributes := bytes 4 (fileAttributes info)
  let access := bytes 4 r.access.toNat
  let options := bytes 4 r.options.toNat
  let nameLength := bytes 4 wire.length
  let standard := allocationSize info ++ endOfFile info ++ bytes 4 1 ++
    [flagByte pendingDelete, flagByte info.isDir] ++ zeros 2
  if cls = 4 then some (fileTimes info ++ attributes ++ zeros 4)
  else if cls = 5 then some standard
  else if cls = 6 then some index
  else if cls = 7 then some (zeros 4)
  else if cls = 8 then some access
  else if cls = 9 ∨ cls = 48 then some (nameLength ++ wire)
  else if cls = 14 then some (zeros 8)
  else if cls = 16 then some options
  else if cls = 17 then some (zeros 4)
  else if cls = 18 then
    some (fileTimes info ++ attributes ++ zeros 4 ++ standard ++ index ++ zeros 4 ++ access ++
      zeros 8 ++ options ++ zeros 4 ++ nameLength ++ wire)
  else if cls = 34 then
    some (fileTimes info ++ allocationSize info ++ endOfFile info ++ attributes ++ zeros 4)
  else if cls = 35 then some (attributes ++ zeros 4)
  else none

/-- Owner and group are the system, and the access list is absent. -/
def fixedSecurityDescriptor : Bytes :=
  let sid : Bytes := [1, 1, 0, 0, 0, 0, 0, 5, 18, 0, 0, 0]
  [1, 0] ++ bytes 2 0x8004 ++ bytes 4 20 ++ bytes 4 (20 + sid.length) ++ zeros 8 ++ sid ++ sid

def ioctlResponse (cfg : Config) (fsctl : UInt32) (fileID : Bytes) (dialect : UInt16) : Bytes :=
  let out := bytes 4 capLargeMTU ++ cfg.guid ++ bytes 2 cfg.securityMode.toNat ++
    bytes 2 dialect.toNat
  bytes 2 49 ++ zeros 2 ++ bytes 4 fsctl.toNat ++ fileID ++ zeros 8 ++ bytes 4 (headerSize + 48) ++
    bytes 4 out.length ++ zeros 8 ++ out

end Information

section Directories

def syntheticInfo (name : Name) : FileInfo := ⟨name, true, 0, 0o755, none⟩

/-- The length of an entry before its name; the other classes are refused. -/
def fixedPart (cls : UInt8) : Option ℕ :=
  if cls = 1 then some 64
  else if cls = 2 then some 68
  else if cls = 3 then some 94
  else if cls = 12 then some 12
  else if cls = 37 then some 102
  else if cls = 38 then some 80
  else none

def encodeDirectoryEntry (cls : UInt8) (index : ℕ) (info : FileInfo) (id : UInt64) : Bytes :=
  let name := utf16Bytes info.name
  let b := put (zeros ((fixedPart cls).getD 0)) 4 (bytes 4 index)
  if cls = 12 then put b 8 (bytes 4 name.length) ++ name
  else
    let b := put b 8 (fileTimes info)
    let b := put b 40 (endOfFile info ++ allocationSize info)
    let b := put b 56 (bytes 4 (fileAttributes info) ++ bytes 4 name.length)
    let b := if cls = 37 then put b 94 (bytes 8 id.toNat) else b
    let b := if cls = 38 then put b 72 (bytes 8 id.toNat) else b
    b ++ name

def joinName (directory : Path) (name : Name) : Path :=
  (split '/' name).foldl
    (fun p part =>
      if part = [] ∨ part = ['.'] then p else if part = ['.', '.'] then p.dropLast else p ++ [part])
    directory

/-- The output of a listing: the bytes, the offset of the last entry in them and the number of
entries. -/
structure Listing where
  out : Bytes
  prevStart : Option ℕ
  count : ℕ

def Listing.add (l : Listing) (entry : Bytes) : Listing :=
  let out := match l.prevStart with
    | none => l.out
    | some prev => put l.out prev (bytes 4 (l.out.length - prev))
  ⟨out ++ pad8 entry, some l.out.length, l.count + 1⟩

/-- Adds entries as long as they fit; one at most when a single entry is asked for. -/
def fill (cls : UInt8) (directory : Path) (maxOut : ℕ) (single : Bool) :
    List (FileInfo × ℕ) → Listing → Listing
  | [], l => l
  | (info, index) :: es, l =>
    let entry := encodeDirectoryEntry cls index info
      (fileIndex (pathText (joinName directory info.name)))
    if l.out.length + align8 entry.length > maxOut then l
    else if single then l.add entry
    else fill cls directory maxOut single es (l.add entry)

end Directories

end SmbResponse
