import FacetFS.SmbCreditRun
import FacetFS.SmbPath

/-! # Messages, signatures and NTLM tokens

The header, the slices a message may name, the signature of a message and the NTLM exchange, all on
the bytes of the wire. What the standard library computes is collected in `Lib`. -/
namespace SmbWire

open SmbState SmbPath LittleEndian

/-- Functions of the standard library and of the cryptographic packages. -/
structure Lib where
  toUpper : Name → Name
  equalFold : Name → Name → Bool
  isSpace : Char → Bool
  hmacMD5 : Bytes → Bytes → Bytes
  rc4 : Bytes → Bytes → Bytes
  hmacSHA256 : Bytes → Bytes → Bytes
  sha512 : Bytes → Bytes
  aesCMAC : Bytes → Bytes → Option Bytes

def cmdSessionSetup : UInt16 := 0x0001
def cmdLogoff : UInt16 := 0x0002
def cmdTreeConnect : UInt16 := 0x0003
def cmdTreeDisconnect : UInt16 := 0x0004
def cmdCreate : UInt16 := 0x0005
def cmdClose : UInt16 := 0x0006
def cmdFlush : UInt16 := 0x0007
def cmdRead : UInt16 := 0x0008
def cmdWrite : UInt16 := 0x0009
def cmdLock : UInt16 := 0x000A
def cmdIOCtl : UInt16 := 0x000B
def cmdEcho : UInt16 := 0x000D
def cmdQueryDirectory : UInt16 := 0x000E
def cmdChangeNotify : UInt16 := 0x000F
def cmdQueryInfo : UInt16 := 0x0010
def cmdSetInfo : UInt16 := 0x0011
def cmdOplockBreak : UInt16 := 0x0012
def cmdCount : UInt16 := 0x0013

def flagServerToRedir : UInt32 := 0x00000001
def flagRelatedOps : UInt32 := 0x00000004
def flagSigned : UInt32 := 0x00000008

def dialect210 : UInt16 := 0x0210
def dialect311 : UInt16 := 0x0311

def signingEnabled : UInt16 := 0x0001
def signingRequired : UInt16 := 0x0002

def signHMACSHA256 : UInt16 := 0x0000
def signAESCMAC : UInt16 := 0x0001

def headerSize : ℕ := 64
def maxSecurityBuffer : ℕ := 65536

section Messages

structure Header extends SmbCreditRun.Header where
  status : UInt32
  flags : UInt32
  nextCommand : UInt32
  treeID : UInt32
  sessionID : UInt64
  signature : Bytes

def protocolID : Bytes := [0xFE, 0x53, 0x4D, 0x42]

def decodeHeader (b : Bytes) : Option Header :=
  if b.length < headerSize then none
  else if b.take 4 ≠ protocolID then none
  else if (uint16 b 4).toNat ≠ headerSize then none
  else some
    { creditCharge := uint16 b 6
      status := uint32 b 8
      command := uint16 b 12
      credits := uint16 b 14
      flags := uint32 b 16
      nextCommand := uint32 b 20
      messageID := uint64 b 24
      treeID := uint32 b 36
      sessionID := uint64 b 40
      signature := (b.drop 48).take 16 }

/-- The bytes from 32 to 36 are reserved and stay zero. -/
def Header.encode (h : Header) : Bytes :=
  protocolID ++ bytes 2 headerSize ++ bytes 2 h.creditCharge.toNat ++ bytes 4 h.status.toNat ++
    bytes 2 h.command.toNat ++ bytes 2 h.credits.toNat ++ bytes 4 h.flags.toNat ++
    bytes 4 h.nextCommand.toNat ++ bytes 8 h.messageID.toNat ++ bytes 4 0 ++
    bytes 4 h.treeID.toNat ++ bytes 8 h.sessionID.toNat ++ h.signature

structure Message where
  hdr : Header
  raw : Bytes
  body : Bytes
  relatedFileID : Option FileID

/-- The region an offset and length pair names; offsets count from the header. -/
def Message.slice (m : Message) (offset length max : ℕ) : Option Bytes :=
  if length = 0 then some []
  else if length > max ∨ offset < headerSize then none
  else if offset + length > m.raw.length then none
  else some ((m.raw.drop offset).take length)

def allOnes : FileID := ⟨0xFFFFFFFFFFFFFFFF, 0xFFFFFFFFFFFFFFFF⟩

/-- An id of all ones stands for the file of the message before. -/
def requestFileID (m : Message) (bodyOffset : ℕ) : Option FileID :=
  if bodyOffset + 16 > m.body.length then none
  else
    let id : FileID := ⟨uint64 m.body bodyOffset, uint64 m.body (bodyOffset + 8)⟩
    if id = allOnes then m.relatedFileID else some id

end Messages

section Signatures

variable (lib : Lib)

def signature (key : Bytes) (alg : UInt16) (frame : Bytes) : Option Bytes :=
  if alg = signAESCMAC then lib.aesCMAC key frame
  else some ((lib.hmacSHA256 key frame).take 16)

/-- The message with the sixteen bytes of its signature cleared. -/
def unsigned (msg : Bytes) : Bytes := msg.take 48 ++ List.replicate 16 0 ++ msg.drop 64

def verifyMessage (key : Bytes) (alg : UInt16) (msg : Bytes) : Bool :=
  if msg.length < headerSize ∨ uint32 msg 16 &&& flagSigned = 0 then false
  else
    match signature lib key alg (unsigned msg) with
    | none => false
    | some got => (msg.drop 48).take 16 = got

/-- Sets the signed flag and puts the signature in place. -/
def signMessage (key : Bytes) (alg : UInt16) (msg : Bytes) : Option Bytes :=
  if msg.length < headerSize then none
  else
    let flagged := unsigned (put msg 16 (bytes 4 (uint32 msg 16 ||| flagSigned).toNat))
    match signature lib key alg flagged with
    | none => none
    | some sig => some (put flagged 48 sig)

def preauthHashSize : ℕ := 64

def advancePreauth (seed wire : Bytes) : Bytes := lib.sha512 (seed ++ wire)

def signingKeyLabel : Bytes :=
  [0x53, 0x4D, 0x42, 0x53, 0x69, 0x67, 0x6E, 0x69, 0x6E, 0x67, 0x4B, 0x65, 0x79, 0]

def smbKDF (key label context : Bytes) : Bytes :=
  (lib.hmacSHA256 key ([0, 0, 0, 1] ++ label ++ [0] ++ context ++ [0, 0, 0, 128])).take 16

end Signatures

section Ntlm

variable (lib : Lib)

def ntlmSignature : Bytes := [0x4E, 0x54, 0x4C, 0x4D, 0x53, 0x53, 0x50, 0]

/-- The token starts where the signature first occurs. -/
def ntlmToken (blob : Bytes) : Option Bytes :=
  match blob.tails.find? fun t => ntlmSignature.isPrefixOf t with
  | none => none
  | some t => if t.length < 12 then none else some t

def ntlmType (token : Bytes) : Option UInt32 :=
  if token.length < 12 ∨ token.take 8 ≠ ntlmSignature then none else some (uint32 token 8)

def ntlmSecurityBuffer (token : Bytes) (at_ max : ℕ) : Option Bytes :=
  if at_ + 8 > token.length then none
  else
    let n := (uint16 token at_).toNat
    let off := (uint32 token (at_ + 4)).toNat
    if n > max ∨ off + n > token.length then none else some ((token.drop off).take n)

structure NtlmAuthResult where
  user : Name
  domain : Name
  key : Bytes

def negotiateKeyExchange : UInt32 := 0x40000000

def exportedSessionKey (sessionBase encrypted : Bytes) (flags : UInt32) : Option Bytes :=
  if flags &&& negotiateKeyExchange = 0 then some sessionBase
  else if encrypted.length ≠ 16 then none
  else some (lib.rc4 sessionBase encrypted)

def ntlmResponseKey (ntHash : Bytes) (user domain : Name) : Bytes :=
  lib.hmacMD5 ntHash (utf16Bytes (lib.toUpper user ++ domain))

/-- `ntHash` is what the authenticator answers; an error is `none`. -/
def authenticateNTLM (ntHash : Name → Name → Option Bytes) (token challenge : Bytes) :
    Option NtlmAuthResult := do
  let typ ← ntlmType token
  if typ ≠ 3 ∨ token.length < 64 then none
  let ntResp ← ntlmSecurityBuffer token 20 maxSecurityBuffer
  if ntResp.length < 16 + 28 then none
  let domainWire ← ntlmSecurityBuffer token 28 maxSecurityBuffer
  let userWire ← ntlmSecurityBuffer token 36 maxSecurityBuffer
  let encrypted ← ntlmSecurityBuffer token 52 32
  let domain ← decodeUTF16 domainWire
  let user ← decodeUTF16 userWire
  if user.all lib.isSpace then none
  let blob := ntResp.drop 16
  if blob.length < 28 ∨ uint32 blob 0 ≠ 0x00000101 then none
  let hash ← ntHash domain user
  if hash.length ≠ 16 then none
  let responseKey := ntlmResponseKey lib hash user domain
  let expected := lib.hmacMD5 responseKey (challenge ++ blob)
  if ntResp.take 16 ≠ expected then none
  let baseKey := lib.hmacMD5 responseKey expected
  let key ← exportedSessionKey lib baseKey encrypted (uint32 token 60)
  return ⟨user, domain, key⟩

end Ntlm

section Codec

theorem length_bytes (n v : ℕ) : (bytes n v).length = n := by
  induction n generalizing v with
  | zero => rfl
  | succ n ih => simp [bytes, ih]

/-- A header is read back from its encoding, whatever follows it. -/
theorem decodeHeader_encode (h : Header) (hs : h.signature.length = 16) (body : Bytes) :
    decodeHeader (h.encode ++ body) = some h := by
  simp [decodeHeader, Header.encode, length_bytes, hs, headerSize, protocolID, uint16, uint32,
    uint64, List.drop_append, List.take_append, value_bytes, List.drop_eq_nil_of_le]
  omega

theorem decodeHeader_encode_echo :
    let h : Header := ⟨⟨1, cmdEcho, 1, 5⟩, 0, 0, 0, 0, 7, List.replicate 16 0⟩
    decodeHeader (h.encode ++ [4, 0, 0, 0]) = some h :=
  decodeHeader_encode _ rfl _

end Codec

end SmbWire
