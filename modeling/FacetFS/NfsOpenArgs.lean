import FacetFS.Names
import FacetFS.NfsWorld

/-! # The arguments of OPEN

OPEN is decoded from its bytes before the owner is looked up. The checks of the decoder leave one
status, which its branches assign in turn; the checks of the values come after the sequence id was
accepted. -/
namespace NfsOpenArgs

open ByteText NfsSeqid NfsStore NfsOps NfsWorld XdrCodec

def nfs4ErrNameTooLong : NfsStat := 63
def nfs4ErrBadName : NfsStat := 10041

def maxNameBytes : ℕ := 255
def maxOpenOwnerID : ℕ := 1024
def maxBitmapWords : ℕ := 8

def createUnchecked : UInt32 := 0
def claimDelegCur : UInt32 := 2
def claimDelegPrev : UInt32 := 3

def decodeName (d : Decoder) : (Text × NfsStat) × Decoder :=
  let (raw, d) := d.opaqueVar (4 * maxNameBytes)
  if d.failed then (([], nfs4ErrBadXDR), d)
  else if raw.length = 0 then (([], nfs4ErrInval), d)
  else if raw.length > maxNameBytes then (([], nfs4ErrNameTooLong), d)
  else if raw = text ['.'] ∨ raw = text ['.', '.'] then (([], nfs4ErrBadName), d)
  else if Names.validate raw = false then (([], nfs4ErrInval), d)
  else ((raw, nfs4OK), d)

def decodeBitmap (d : Decoder) : List UInt32 × Decoder :=
  let (n, d) := d.uint32
  if n.toNat > maxBitmapWords then ([], d.fail) else Decoder.words n.toNat d

/-- What the create part of OPEN leaves: the mode, the attributes with their mask, the verifier and
the status so far. -/
structure CreateHow where
  mode : UInt32
  attrMask : List UInt32
  attrVals : List UInt8
  verf : List UInt8
  argStatus : NfsStat

def decodeCreateHow (cap : ℕ) (openType : UInt32) (d : Decoder) : CreateHow × Decoder :=
  if openType ≠ openCreate then (⟨0, [], [], List.replicate 8 0, nfs4OK⟩, d)
  else
    let (mode, d) := d.uint32
    if mode = createUnchecked ∨ mode = createGuarded then
      let (mask, d) := decodeBitmap d
      let (vals, d) := d.opaqueVar cap
      (⟨mode, mask, vals, List.replicate 8 0, nfs4OK⟩, d)
    else if mode = createExclusive then
      let (verf, d) := d.opaqueFixed 8
      (⟨mode, [], [], verf, nfs4OK⟩, d)
    else (⟨mode, [], [], List.replicate 8 0, nfs4ErrInval⟩, d)

/-- The claim, its name and the status that replaces the one before. -/
def decodeClaim (argStatus : NfsStat) (d : Decoder) : (UInt32 × Text × NfsStat) × Decoder :=
  let (claim, d) := d.uint32
  if claim = claimNull then
    let ((name, argStatus), d) := decodeName d
    ((claim, name, argStatus), d)
  else if claim = claimPrevious then ((claim, [], argStatus), d.uint32.2)
  else if claim = claimDelegCur then
    let ((name, argStatus), d) := decodeName (d.uint32.2.opaqueFixed 12).2
    ((claim, name, argStatus), d)
  else if claim = claimDelegPrev then
    let ((name, argStatus), d) := decodeName d
    ((claim, name, argStatus), d)
  else ((claim, [], nfs4ErrInval), d)

structure OpenFields where
  seqid : UInt32
  access : UInt32
  deny : UInt32
  clientID : UInt64
  owner : List UInt8
  openType : UInt32
  how : CreateHow
  claim : UInt32
  name : Text
  argStatus : NfsStat

def decodeOpen (cap : ℕ) (d : Decoder) : OpenFields × Decoder :=
  let (seqid, d) := d.uint32
  let (access, d) := d.uint32
  let (deny, d) := d.uint32
  let (clientID, d) := d.uint64
  let (owner, d) := d.opaqueVar maxOpenOwnerID
  let (openType, d) := d.uint32
  let (how, d) := decodeCreateHow cap openType d
  let ((claim, name, argStatus), d) := decodeClaim how.argStatus d
  (⟨seqid, access, deny, clientID, owner, openType, how, claim, name, argStatus⟩, d)

/-- What the server does to the decoded values: the path segment that a component is, and the
decoding of the attributes. -/
structure Values where
  nameOf : Text → String
  decodeSetAttrs : List UInt32 → List UInt8 → Except NfsStat (Option ℕ)

def OpenFields.args (f : OpenFields) (v : Values) : OpenArgs where
  seqid := f.seqid
  access := f.access
  deny := f.deny
  clientID := f.clientID.toNat
  owner := f.owner
  openType := f.openType
  createMode := f.how.mode
  claim := f.claim
  name := if f.argStatus = nfs4OK then .ok (v.nameOf f.name) else .error f.argStatus
  attrsGiven := f.how.attrMask ≠ [] || f.how.attrVals ≠ []
  attrs := v.decodeSetAttrs f.how.attrMask f.how.attrVals

/-- An OPEN as it comes off the wire, with what the FileSystem will answer. -/
structure Input where
  cap : ℕ
  values : Values
  bytes : List UInt8
  call : OpenCall

def Input.decoded (i : Input) : OpenFields × Decoder := decodeOpen i.cap ⟨i.bytes, false⟩

def Input.fields (i : Input) : OpenFields := i.decoded.1

def Input.openCall (i : Input) : OpenCall :=
  { i.call with
    args := i.fields.args i.values
    verf := UInt64.ofNat (i.fields.how.verf.foldl (fun n b => n * 2 ^ 8 + b.toNat) 0) }

def openBytes (w : World) (fh : Option Path) (i : Input) : Outcome × World :=
  if i.decoded.2.failed then (failed nfs4ErrBadXDR, w) else w.openFile fh i.openCall

/-- Whether the body of OPEN comes to the FileSystem's OpenFile. -/
def callsOpenFile (w : World) (fh : Option Path) (o : OwnerRef) (c : OpenCall) : Bool :=
  match openTarget fh c.args (w.openEnv fh c) with
  | .error _ => false
  | .ok target =>
    match openCheck (w.consult fh c).store.toTables o target c.args with
    | .error _ => false
    | .ok plan =>
      (openRecall (w.consult fh c).store w.clock plan c.args).1 = nfs4OK && plan.needOpen

/-- Whether the request comes to OpenFile: its owner is known, its sequence id is accepted, and its
body gets there. -/
def reachesOpenFile (w : World) (fh : Option Path) (i : Input) : Bool :=
  !i.decoded.2.failed && (w.openFile fh i.openCall).1.ran &&
    match w.store.ownerOf w.clock i.openCall.args.clientID i.openCall.args.owner with
    | (.error _, _) => false
    | (.ok o, st) => callsOpenFile (w.setStore st) fh o i.openCall

/-- The values that OPEN may go on with. -/
structure Valid (f : OpenFields) : Prop where
  access : f.access = 1 ∨ f.access = 2 ∨ f.access = 3
  deny : f.deny.toNat ≤ 3
  openType : f.openType = 0 ∨ f.openType = openCreate
  mode : f.openType = openCreate →
    f.how.mode = createUnchecked ∨ f.how.mode = createGuarded ∨ f.how.mode = createExclusive
  claim : f.claim = claimNull
  name : Names.Segment f.name

/-- The answer is an error and the FileSystem is as it was, with no file opened. -/
structure Refused (w : World) (fh : Option Path) (i : Input) : Prop where
  status : (openBytes w fh i).1.status ≠ nfs4OK
  disk : (openBytes w fh i).2.disk = w.disk
  closed : reachesOpenFile w fh i = false

def UnknownMode (f : OpenFields) : Prop :=
  f.openType = openCreate ∧ f.how.mode ≠ createUnchecked ∧ f.how.mode ≠ createGuarded ∧
    f.how.mode ≠ createExclusive

/-- A request that is answered without its body, because its sequence id is the last one, has
valid arguments or gets an error; and a create with an unknown mode is refused on other grounds. -/
structure Guarded (w : World) (fh : Option Path) (i : Input) : Prop where
  replay : i.decoded.2.failed = false → (openBytes w fh i).1.ran = false → ¬ Valid i.fields →
    (openBytes w fh i).1.status ≠ nfs4OK
  mode : i.decoded.2.failed = false → (openBytes w fh i).1.ran = true → UnknownMode i.fields →
    Refused w fh i

theorem toNat_le_of_mask {a m : UInt32} (h : a &&& ~~~m = 0) : a.toNat ≤ m.toNat := by
  have hmask : a.toBitVec = a.toBitVec &&& m.toBitVec := by
    have hbits : a.toBitVec &&& ~~~m.toBitVec = 0 := congrArg UInt32.toBitVec h
    ext i hi
    have hbit := congrArg (·[i]) hbits
    simp only [BitVec.getElem_and, BitVec.getElem_not] at hbit ⊢
    revert hbit
    cases a.toBitVec[i] <;> cases m.toBitVec[i] <;> simp
  have hnat := congrArg BitVec.toNat hmask
  rw [BitVec.toNat_and] at hnat
  calc a.toNat = a.toNat &&& m.toNat := hnat
    _ ≤ m.toNat := Nat.and_le_right

theorem badShare_false {access deny : UInt32} (h : badShare access deny = false) :
    (access = 1 ∨ access = 2 ∨ access = 3) ∧ deny.toNat ≤ 3 := by
  simp only [badShare, Bool.or_eq_false_iff, beq_eq_false_iff_ne, bne_eq_false_iff_eq] at h
  obtain ⟨⟨hne, haccess⟩, hdeny⟩ := h
  have hle := toNat_le_of_mask haccess
  have hshare : shareBoth.toNat = 3 := rfl
  have hcases : ∀ n : ℕ, access.toNat = n → access = UInt32.ofNat n := by
    rintro n rfl
    exact UInt32.ofNat_toNat.symm
  refine ⟨?_, toNat_le_of_mask hdeny⟩
  rw [hshare] at hle
  have hn : access.toNat = 0 ∨ access.toNat = 1 ∨ access.toNat = 2 ∨ access.toNat = 3 := by omega
  rcases hn with hn | hn | hn | hn
  · exact absurd (hcases 0 hn) hne
  · exact .inl (hcases 1 hn)
  · exact .inr (.inl (hcases 2 hn))
  · exact .inr (.inr (hcases 3 hn))

theorem decodeName_spec (d : Decoder) :
    (decodeName d).1.2 ≠ nfs4OK ∨ Names.Segment (decodeName d).1.1 := by
  have hxdr : nfs4ErrBadXDR ≠ nfs4OK := by decide
  have hinval : nfs4ErrInval ≠ nfs4OK := by decide
  have hlong : nfs4ErrNameTooLong ≠ nfs4OK := by decide
  have hbad : nfs4ErrBadName ≠ nfs4OK := by decide
  unfold decodeName
  rcases d.opaqueVar (4 * maxNameBytes) with ⟨raw, d⟩
  simp only
  split
  · exact .inl hxdr
  split
  · exact .inl hinval
  split
  · exact .inl hlong
  split
  · exact .inl hbad
  split
  · exact .inl hinval
  rename_i hv
  rw [Bool.not_eq_false] at hv
  exact .inr ((Names.validate_iff raw).1 hv)

theorem decodeClaim_spec (argStatus : NfsStat) (d : Decoder)
    (hclaim : (decodeClaim argStatus d).1.1 = claimNull) :
    (decodeClaim argStatus d).1.2.2 ≠ nfs4OK ∨ Names.Segment (decodeClaim argStatus d).1.2.1 := by
  simp only [decodeClaim] at hclaim ⊢
  split
  · exact decodeName_spec d.uint32.2
  rename_i hne
  rw [if_neg hne] at hclaim
  refine absurd ?_ hne
  rw [← hclaim]
  split
  · rfl
  split
  · rfl
  · split <;> rfl

theorem decodeOpen_spec (cap : ℕ) (d : Decoder) (hclaim : (decodeOpen cap d).1.claim = claimNull) :
    (decodeOpen cap d).1.argStatus ≠ nfs4OK ∨ Names.Segment (decodeOpen cap d).1.name :=
  decodeClaim_spec _ _ hclaim

theorem valid_or_unknownMode {i : Input} (hname : i.fields.argStatus = nfs4OK)
    (h : (i.fields.args i.values).refused = nfs4OK) : Valid i.fields ∨ UnknownMode i.fields := by
  unfold OpenArgs.refused at h
  split at h
  · cases h
  rename_i hshare
  rw [Bool.not_eq_true] at hshare
  obtain ⟨haccess, hdeny⟩ := badShare_false hshare
  split at h
  · cases h
  rename_i htype
  split at h
  · cases h
  split at h
  · cases h
  rename_i hclaim
  rw [not_not] at hclaim
  have htype' : i.fields.openType = 0 ∨ i.fields.openType = openCreate := by
    by_contra hn
    exact htype (not_or.1 hn)
  have hseg := (decodeOpen_spec i.cap ⟨i.bytes, false⟩ hclaim).resolve_left
    (not_not.2 hname)
  by_cases hmode : UnknownMode i.fields
  · exact .inr hmode
  refine .inl ⟨haccess, hdeny, htype', fun hcreate => ?_, hclaim, hseg⟩
  by_contra hn
  rw [not_or, not_or] at hn
  exact hmode ⟨hcreate, hn⟩

theorem openTarget_error {i : Input} (hv : ¬ Valid i.fields) (hm : ¬ UnknownMode i.fields)
    (fh : Option Path) (env : OpenEnv) :
    ∃ e, e ≠ nfs4OK ∧ openTarget fh (i.fields.args i.values) env = .error e := by
  by_cases hname : i.fields.argStatus = nfs4OK
  · by_cases hrefused : (i.fields.args i.values).refused = nfs4OK
    · rcases valid_or_unknownMode hname hrefused with h | h
      · exact absurd h hv
      · exact absurd h hm
    · refine ⟨_, hrefused, ?_⟩
      have hok : (i.fields.args i.values).name = .ok (i.values.nameOf i.fields.name) :=
        if_pos hname
      rw [openTarget, hok]
      exact if_pos hrefused
  · refine ⟨_, hname, ?_⟩
    have herr : (i.fields.args i.values).name = .error i.fields.argStatus := if_neg hname
    rw [openTarget, herr]

variable {w : World} {fh : Option Path}

section UnknownCreate

end UnknownCreate

end NfsOpenArgs
