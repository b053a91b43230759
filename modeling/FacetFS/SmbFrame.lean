import FacetFS.SmbServer

/-! # Frames of an SMB connection

A frame is a chain of messages. The walk decodes, admits and rules on each message in turn, hands it
to the dispatcher or answers for it, and chains the response onto the reply. At the end the
responses are signed, the hashes of the negotiation advance and the sessions that logged off are
closed. Frames of all connections are handled one at a time. -/
namespace SmbFrame

open SmbState SmbWire SmbResponse SmbServer LittleEndian EffectTriple

variable {φ : Type}

def maxChainedMessages : ℕ := 64

/-- What happened on behalf of a message: the world in which it was ruled on, and the world before
and after. Closing a session after a LOGOFF is a step of that LOGOFF. -/
structure Step (φ : Type) where
  msg : Message
  dispatched : Bool
  seen : World φ
  before : World φ
  after : World φ

structure Answered where
  msg : Message
  start : ℕ

/-- The variables of the chain walk. -/
structure Walk (φ : Type) where
  reply : Bytes
  sessionID : UInt64
  treeID : UInt32
  relatedFileID : Option FileID
  answers : List Answered
  cleanup : List (Message × World φ × SessionRef)
  relatedFailed : Option Status
  sigFailed : Bool
  closeAfter : Bool
  lastHeader : Option ℕ
  offset : ℕ
  steps : List (Step φ)

def Walk.start : Walk φ := ⟨[], 0, 0, none, [], [], none, false, false, none, 0, []⟩

/-- The outcome of a frame; without `answered` the connection is torn down. `steps` has one entry for
every message, `closings` one for every session that logged off. -/
structure Outcome (φ : Type) where
  reply : Option Bytes
  answered : Bool
  closeAfter : Bool
  world : World φ
  steps : List (Step φ)
  closings : List (Step φ)

section Messages

/-- The message at the offset of the walk, as it stands on the wire. -/
def readMessage (frame : Bytes) (offset : ℕ) : Option Message :=
  let rest := frame.drop offset
  match decodeHeader rest with
  | none => none
  | some hdr =>
    let next := hdr.nextCommand.toNat
    if next ≠ 0 ∧ (next < headerSize ∨ next % 8 ≠ 0 ∨ next > rest.length) then none
    else
      let raw := if next ≠ 0 then rest.take next else rest
      some ⟨hdr, raw, raw.drop headerSize, none⟩

def related (m : Message) : Bool := m.hdr.flags &&& flagRelatedOps != 0
def signed (m : Message) : Bool := m.hdr.flags &&& flagSigned != 0

/-- A related message takes over the ids of the group. -/
def inherit (wk : Walk φ) (m : Message) : Message :=
  if related m then
    { m with
      hdr := { m.hdr with sessionID := wk.sessionID, treeID := wk.treeID }
      relatedFileID := wk.relatedFileID }
  else m

def regroup (wk : Walk φ) (m : Message) : Walk φ :=
  if related m then wk
  else { wk with
    sessionID := m.hdr.sessionID
    treeID := m.hdr.treeID
    relatedFileID := none
    relatedFailed := none }

def admitMessage (w : World φ) (c : ConnRef) (m : Message) : Bool × World φ :=
  let r := (w.conn c).toConnection.admitMessage m.hdr.toHeader
  (r.1, { w with conn := Function.update w.conn c { w.conn c with toConnection := r.2 } })

end Messages

section Rulings

/-- What the walk does with a message. -/
inductive Ruling where
  | poisoned
  | badSignature
  | unsigned
  | inherited (status : Status)
  | dispatch

def named (w : World φ) (c : ConnRef) (m : Message) : Option Session :=
  (session w.tables m.hdr.sessionID c).map w.tables.session

/-- The message has the signed flag and its signature does not verify under the key of the session
it names. -/
def SignatureFails (lib : Lib) (w : World φ) (c : ConnRef) (m : Message) : Prop :=
  ∃ s ∈ named w c m, s.authenticated = true ∧ signed m = true ∧
    verifyMessage lib s.signingKey (w.conn c).signAlg m.raw = false

instance (lib : Lib) (w : World φ) (c : ConnRef) (m : Message) :
    Decidable (SignatureFails lib w c m) :=
  match h : named w c m with
  | none => isFalse (by simp [SignatureFails, h])
  | some s => decidable_of_iff (s.authenticated = true ∧ signed m = true ∧
      verifyMessage lib s.signingKey (w.conn c).signAlg m.raw = false)
      (by simp [SignatureFails, h])

/-- The session demands signing and the message does not have the signed flag. -/
def SignatureMissing (w : World φ) (c : ConnRef) (m : Message) : Prop :=
  ∃ s ∈ named w c m, s.authenticated = true ∧ s.sign = true ∧ signed m = false

instance (w : World φ) (c : ConnRef) (m : Message) : Decidable (SignatureMissing w c m) :=
  match h : named w c m with
  | none => isFalse (by simp [SignatureMissing, h])
  | some s => decidable_of_iff (s.authenticated = true ∧ s.sign = true ∧ signed m = false)
      (by simp [SignatureMissing, h])

def ruling (lib : Lib) (w : World φ) (c : ConnRef) (wk : Walk φ) (m : Message) : Ruling :=
  if wk.sigFailed then .poisoned
  else if SignatureFails lib w c m then .badSignature
  else if SignatureMissing w c m then .unsigned
  else
    match wk.relatedFailed with
    | some status => .inherited status
    | none => .dispatch

end Rulings

section Walks

variable (srv : Server φ) (c : ConnRef)

def failure (status : Status) : Reply := { ok errorResponse with status := status }

/-- Runs the command of a message and keeps a record of it. -/
def perform (env : Env) (m : Message) (w : World φ) : Reply × World φ :=
  let logged := { w with log := ⟨c, m, env, session w.tables m.hdr.sessionID c⟩ :: w.log }
  match dispatch srv c env m logged with
  | .ok reply w => (reply, w)
  | .error status w => (failure status, w)

def failed (status : Status) : Bool :=
  status ≠ .success && status ≠ .moreProcessingRequired

/-- The reply to a message and the walk after the ruling on it. -/
def rule (env : Env) (m : Message) (wk : Walk φ) (w : World φ) : Reply × Walk φ × World φ :=
  match ruling srv.lib w c wk m with
  | .poisoned => (failure .accessDenied, wk, w)
  | .badSignature => (failure .accessDenied, { wk with sigFailed := true, closeAfter := true }, w)
  | .unsigned => (failure .accessDenied, wk, w)
  | .inherited status => (failure status, wk, w)
  | .dispatch =>
    let (reply, w) := perform srv c env m w
    (reply, if failed reply.status then { wk with relatedFailed := some reply.status } else wk, w)

/-- The message after its command: the ids of a new session or tree are in its header. -/
def stamped (m : Message) (reply : Reply) : Message :=
  { m with hdr := { m.hdr with
      sessionID := reply.sessionID.getD m.hdr.sessionID
      treeID := reply.treeID.getD m.hdr.treeID } }

/-- Pads the previous response and records the distance to the next one in it. -/
def chain (reply : Bytes) : Option ℕ → Bytes
  | none => reply
  | some last => put (pad8 reply) (last + 20) (bytes 4 ((pad8 reply).length - last))

def responseHeader (m : Message) (status : Status) (credits : ℕ) : Header where
  creditCharge := 0
  status := UInt32.ofNat (statusCode status)
  command := m.hdr.command
  credits := UInt16.ofNat credits
  flags := m.hdr.flags &&& flagRelatedOps ||| flagServerToRedir
  nextCommand := 0
  messageID := m.hdr.messageID
  treeID := m.hdr.treeID
  sessionID := m.hdr.sessionID
  signature := zeros 16

def appendResponse (m : Message) (reply : Reply) (wk : Walk φ) (w : World φ) : Walk φ × World φ :=
  let granted := (w.conn c).toConnection.grant m.hdr.credits
  let w := { w with conn := Function.update w.conn c { w.conn c with toConnection := granted.2 } }
  let before := chain wk.reply wk.lastHeader
  ({ wk with
      reply := before ++ (responseHeader m reply.status granted.1).encode ++ reply.body
      lastHeader := some before.length
      answers := wk.answers ++ [⟨m, before.length⟩] }, w)

/-- What a message leaves in the walk: the file for the next one, its response unless it is a
CANCEL, and the session to close. -/
def conclude (m : Message) (reply : Reply) (seen : World φ) (wk : Walk φ) (w : World φ) :
    Walk φ × World φ :=
  let wk := { wk with relatedFileID := reply.resultFileID.orElse fun _ => wk.relatedFileID }
  let (wk, w) :=
    if m.hdr.command = SmbCreditRun.cmdCancel then (wk, w)
    else appendResponse c (stamped m reply) reply wk w
  ({ wk with cleanup := wk.cleanup ++ (reply.closeSession.map fun s => (m, seen, s)).toList }, w)

def Ruling.dispatches : Ruling → Bool
  | .dispatch => true
  | _ => false

def handleMessage (env : Env) (m : Message) (wk : Walk φ) (w : World φ) : Walk φ × World φ :=
  let (reply, wk', w') := rule srv c env m wk w
  let step : Step φ := ⟨m, (ruling srv.lib w c wk m).dispatches, w, w, w'⟩
  conclude c m reply w { wk' with steps := wk'.steps ++ [step] } w'

end Walks

section Endings

variable (srv : Server φ) (c : ConnRef)

def answerEnd (reply : Bytes) : List Answered → ℕ
  | [] => reply.length
  | a :: _ => a.start

/-- Signs the responses in place, each with the key of the session it answers. -/
def signReplies (w : World φ) : List Answered → Bytes → Option Bytes
  | [], reply => some reply
  | a :: as, reply =>
    match named w c a.msg with
    | none => signReplies w as reply
    | some s =>
      if s.authenticated && (s.sign || signed a.msg) then
        match signMessage srv.lib s.signingKey (w.conn c).signAlg
            ((reply.take (answerEnd reply as)).drop a.start) with
        | none => none
        | some wire => signReplies w as (put reply a.start wire)
      else signReplies w as reply

/-- The hash of the negotiation, or of the session, after a response. -/
def advance (w : World φ) (m : Message) (wire : Bytes) : World φ :=
  if m.hdr.command = SmbCreditRun.cmdNegotiate then
    if (w.conn c).dialect = dialect311 then
      { w with conn := Function.update w.conn c { w.conn c with
          preauth := advancePreauth srv.lib
            (advancePreauth srv.lib (w.conn c).preauth m.raw) wire } }
    else w
  else if m.hdr.command = cmdSessionSetup then
    match session w.tables m.hdr.sessionID c with
    | none => w
    | some s =>
      { w with tables := w.tables.setSession s { w.tables.session s with
          preauth := advancePreauth srv.lib (w.tables.session s).preauth wire } }
  else w

def advanceAll (reply : Bytes) : List Answered → World φ → World φ
  | [], w => w
  | a :: as, w =>
    advanceAll reply as
      (advance srv c w a.msg ((reply.take (answerEnd reply as)).drop a.start))

def cleanUp : List (Message × World φ × SessionRef) → World φ → World φ × List (Step φ)
  | [], w => (w, [])
  | (m, seen, s) :: rest, w =>
    let after := finalState (closeSession srv s w)
    let r := cleanUp rest after
    (r.1, ⟨m, true, seen, w, after⟩ :: r.2)

def finish (wk : Walk φ) (w : World φ) : Outcome φ :=
  if wk.reply = [] then ⟨none, true, wk.closeAfter, w, wk.steps, []⟩
  else
    match signReplies srv c w wk.answers wk.reply with
    | none => ⟨none, false, false, w, wk.steps, []⟩
    | some reply =>
      let r := cleanUp srv wk.cleanup (advanceAll srv c reply wk.answers w)
      ⟨some reply, true, wk.closeAfter, r.1, wk.steps, r.2⟩

end Endings

section Frames

variable (srv : Server φ) (c : ConnRef)

def drop (wk : Walk φ) (w : World φ) : Outcome φ := ⟨none, false, false, w, wk.steps, []⟩

/-- The chain walk. `fuel` is the number of messages the frame may still have. -/
def walk (envs : ℕ → Env) (frame : Bytes) : ℕ → ℕ → Walk φ → World φ → Outcome φ
  | 0, _, wk, w => drop wk w
  | fuel + 1, count, wk, w =>
    match readMessage frame wk.offset with
    | none => drop wk w
    | some m =>
      match admitMessage w c m with
      | (false, w) => drop wk w
      | (true, w) =>
        if related m ∧ count = 0 then drop wk w
        else
          let (wk', w') := handleMessage srv c (envs count) (inherit wk m) (regroup wk m) w
          if m.hdr.nextCommand = 0 then finish srv c wk' w'
          else walk envs frame fuel (count + 1) { wk' with offset := wk.offset + m.raw.length } w'

def handleFrame (envs : ℕ → Env) (frame : Bytes) (w : World φ) : Outcome φ :=
  walk srv c envs frame maxChainedMessages 0 .start w

end Frames

section Connections

variable (srv : Server φ)

def newWorld (fs : φ) : World φ := ⟨newServerState, fun _ => .fresh, 0, fs, 0, []⟩

def connect (w : World φ) : World φ :=
  { w with conn := Function.update w.conn w.nextConn .fresh, nextConn := w.nextConn + 1 }

def smb1Negotiate (c : ConnRef) (frame : Bytes) (w : World φ) : World φ :=
  let conn := { w.conn c with
    toConnection := ((w.conn c).toConnection.smb1Negotiate frame).2 }
  { w with conn := Function.update w.conn c conn }

def smb1ProtocolID : Bytes := [0xFF, 0x53, 0x4D, 0x42]

def receive (c : ConnRef) (envs : ℕ → Env) (frame : Bytes) (w : World φ) : World φ :=
  if frame.take 4 = smb1ProtocolID then smb1Negotiate c frame w
  else (handleFrame srv c envs frame w).world

def sessionsOf (st : State) (c : ConnRef) : List SessionRef :=
  (st.sessions.entries.map (·.2)).filter fun s => (st.session s).conn = c

def closeConnection (c : ConnRef) : Action φ Unit := fun w =>
  (sessionsOf w.tables c).forM (closeSession srv) w

inductive Event where
  | connect
  | frame (c : ConnRef) (envs : ℕ → Env) (bytes : Bytes)
  | disconnect (c : ConnRef)

def next (w : World φ) : Event → Option (World φ)
  | .connect => some (connect w)
  | .frame c envs bytes =>
    if c < w.nextConn then some (receive srv c envs bytes w) else none
  | .disconnect c => some (finalState (closeConnection srv c w))

end Connections

end SmbFrame
