import FacetFS.XdrCodec

/-! # The encoding of file attributes

A fattr4 is the bitmap of the attributes it holds, then their values as one opaque. The values
have no tags: a reader goes through the bits in ascending order and takes for each a value of the
form that the protocol gives this attribute. -/
namespace NfsAttr

open XdrCodec

abbrev Bitmap := List UInt32

def bit (n : ℕ) : UInt32 := 1 <<< UInt32.ofNat (n % 32)

def has (b : Bitmap) (n : ℕ) : Bool := b.getD (n / 32) 0 &&& bit n != 0

def setBit (b : Bitmap) (n : ℕ) : Bitmap :=
  (b ++ List.replicate (n / 32 + 1 - b.length) 0).modify (n / 32) (· ||| bit n)

def encodeBitmap (b : Bitmap) : List UInt8 :=
  uint32 (UInt32.ofNat b.length) ++ b.flatMap uint32

/-- The optional interfaces of the FileSystem and the settings of the server. -/
structure Server where
  linkFS : Bool
  symlinkFS : Bool
  statVFSFS : Bool
  setStatFS : Bool
  lease : UInt32
  maxRead : UInt32
  maxWrite : UInt32

structure FSStat where
  totalBytes : UInt64
  freeBytes : UInt64
  availBytes : UInt64
  totalFiles : UInt64
  freeFiles : UInt64

/-- Sizes and times as the words they are converted to. -/
structure FileInfo where
  size : UInt64
  unixNano : UInt64
  unix : UInt64
  nanosecond : UInt32
  perm : UInt32
  isDir : Bool
  isSymlink : Bool

structure AttrCtx where
  s : Server
  path : List UInt8
  fi : FileInfo
  vfs : Option FSStat
  handle : List UInt8
  handle_short : handle.length ≤ 128

def statVFS (a : AttrCtx) : FSStat :=
  if a.s.statVFSFS then a.vfs.getD ⟨0, 0, 0, 0, 0⟩ else ⟨0, 0, 0, 0, 0⟩

def commonAttrs : List ℕ :=
  [0, 1, 2, 3, 4, 5, 6, 7, 8, 9, 10, 11, 13, 15, 16, 17, 18, 19, 20, 26, 27, 28, 29, 30, 31, 33,
    34, 35, 36, 37, 41, 45, 47, 51, 52, 53, 55]

def vfsAttrs : List ℕ := [21, 22, 23, 42, 43, 44]

/-- `time_access_set` and `time_modify_set`. -/
def setTimeAttrs : List ℕ := [48, 54]

def supportedAttrs (s : Server) : Bitmap :=
  (commonAttrs ++ (if s.statVFSFS then vfsAttrs else []) ++
    if s.setStatFS then setTimeAttrs else []).foldl setBit []

def fileID (path : List UInt8) : UInt64 :=
  path.foldl (fun h b => (h ^^^ b.toUInt64) * 1099511628211) 14695981039346656037

def changeOf (fi : FileInfo) : UInt64 := fi.unixNano ^^^ fi.size <<< 1

def fileType (fi : FileInfo) : UInt32 := if fi.isDir then 2 else if fi.isSymlink then 5 else 1

/-- The shapes of the values that attributes are encoded as. -/
inductive Value where
  | bits (b : Bitmap)
  | word (v : UInt32)
  | hyper (v : UInt64)
  | flag (v : Bool)
  | blob (b : List UInt8)
  | fsid (major minor : UInt64)
  | time (seconds : UInt64) (nseconds : UInt32)
  | specdata (x y : UInt32)

def Value.encode : Value → List UInt8
  | bits b => encodeBitmap b
  | word v => uint32 v
  | hyper v => uint64 v
  | flag v => XdrCodec.bool v
  | blob b => opaqueVar b
  | fsid x y => uint64 x ++ uint64 y
  | time s n => uint64 s ++ uint32 n
  | specdata x y => uint32 x ++ uint32 y

def modTime (fi : FileInfo) : Value := .time fi.unix fi.nanosecond

/-- The cases of the switch over the attribute numbers, which has no default. -/
def attrValue (a : AttrCtx) : ℕ → Option Value
  | 0 => some (.bits (supportedAttrs a.s)) -- supported_attrs
  | 1 => some (.word (fileType a.fi)) -- type
  | 2 => some (.word 2) -- fh_expire_type
  | 3 => some (.hyper (changeOf a.fi)) -- change
  | 4 => some (.hyper a.fi.size) -- size
  | 5 => some (.flag a.s.linkFS) -- link_support
  | 6 => some (.flag a.s.symlinkFS) -- symlink_support
  | 7 => some (.flag false) -- named_attr
  | 8 => some (.fsid 0x66616365 0) -- fsid
  | 9 => some (.flag false) -- unique_handles
  | 10 => some (.word a.s.lease) -- lease_time
  | 11 => some (.word 0) -- rdattr_error
  | 13 => some (.word 0) -- aclsupport
  | 15 => some (.flag a.s.setStatFS) -- cansettime
  | 16 => some (.flag false) -- case_insensitive
  | 17 => some (.flag true) -- case_preserving
  | 18 => some (.flag true) -- chown_restricted
  | 19 => some (.blob a.handle) -- filehandle
  | 20 => some (.hyper (fileID a.path)) -- fileid
  | 21 => some (.hyper (statVFS a).freeFiles) -- files_avail
  | 22 => some (.hyper (statVFS a).freeFiles) -- files_free
  | 23 => some (.hyper (statVFS a).totalFiles) -- files_total
  | 26 => some (.flag true) -- homogeneous
  | 27 => some (.hyper ((1 : UInt64) <<< 62)) -- maxfilesize
  | 28 => some (.word 255) -- maxlink
  | 29 => some (.word 255) -- maxname
  | 30 => some (.hyper a.s.maxRead.toUInt64) -- maxread
  | 31 => some (.hyper a.s.maxWrite.toUInt64) -- maxwrite
  | 33 => some (.word a.fi.perm) -- mode
  | 34 => some (.flag true) -- no_trunc
  | 35 => some (.word 1) -- numlinks
  | 36 => some (.blob [48]) -- owner
  | 37 => some (.blob [48]) -- owner_group
  | 41 => some (.specdata 0 0) -- rawdev
  | 42 => some (.hyper (statVFS a).availBytes) -- space_avail
  | 43 => some (.hyper (statVFS a).freeBytes) -- space_free
  | 44 => some (.hyper (statVFS a).totalBytes) -- space_total
  | 45 => some (.hyper a.fi.size) -- space_used
  | 47 => some (modTime a.fi) -- time_access
  | 51 => some (.time 0 1) -- time_delta
  | 52 => some (modTime a.fi) -- time_metadata
  | 53 => some (modTime a.fi) -- time_modify
  | 55 => some (.hyper (fileID a.path)) -- mounted_on_fileid
  | _ => none

def encodeAttrValue (a : AttrCtx) (attr : ℕ) : List UInt8 :=
  ((attrValue a attr).map Value.encode).getD []

def grantedAttrs (requested supported : Bitmap) : Bitmap :=
  ((List.range 56).filter fun i => has requested i && has supported i).foldl setBit []

/-- The attributes of a bitmap in ascending order. -/
def attrs (b : Bitmap) : List ℕ := (List.range 56).filter (has b)

def encodeFattr (e : List UInt8) (requested : Bitmap) (a : AttrCtx) : List UInt8 :=
  let granted := grantedAttrs requested (supportedAttrs a.s)
  let e := e ++ encodeBitmap granted
  let lengthAt := e.length
  let e := e ++ uint32 0
  let start := e.length
  let e := e ++ (attrs granted).flatMap (encodeAttrValue a)
  patchUint32 e lengthAt (UInt32.ofNat (e.length - start))

section Forms

/-- The wire forms of the protocol's attributes. -/
inductive Form where
  | bits
  | word
  | hyper
  | flag
  | blob
  | fsid
  | time
  | specdata
  | settime
  deriving DecidableEq

def Value.form : Value → Form
  | bits _ => .bits
  | word _ => .word
  | hyper _ => .hyper
  | flag _ => .flag
  | blob _ => .blob
  | fsid _ _ => .fsid
  | time _ _ => .time
  | specdata _ _ => .specdata

/-- The protocol's form for each attribute that a server here may support. -/
def wireForm (attr : ℕ) : Option Form :=
  if attr = 0 then some .bits
  else if attr ∈ [1, 2, 10, 11, 13, 28, 29, 33, 35] then some .word
  else if attr ∈ [3, 4, 20, 21, 22, 23, 27, 30, 31, 42, 43, 44, 45, 55] then some .hyper
  else if attr ∈ [5, 6, 7, 9, 15, 16, 17, 18, 26, 34] then some .flag
  else if attr = 8 then some .fsid
  else if attr ∈ [19, 36, 37] then some .blob
  else if attr = 41 then some .specdata
  else if attr ∈ [47, 51, 52, 53] then some .time
  else if attr ∈ [48, 54] then some .settime
  else none

def dropBytes (n : ℕ) (bs : List UInt8) : Option (List UInt8) :=
  if bs.length < n then none else some (bs.drop n)

/-- A reader takes one value of a form and has the rest left. -/
def Form.skip (f : Form) (bs : List UInt8) : Option (List UInt8) :=
  let n := (headUint32 bs).toNat
  match f with
  | bits => (dropBytes 4 bs).bind (dropBytes (4 * n))
  | word => dropBytes 4 bs
  | hyper => dropBytes 8 bs
  | flag => if n ≤ 1 then dropBytes 4 bs else none
  | blob => (dropBytes 4 bs).bind (dropBytes (n + pad n))
  | fsid => dropBytes 16 bs
  | time => dropBytes 12 bs
  | specdata => dropBytes 8 bs
  -- The server's time, or a time of the client.
  | settime => if n = 0 then dropBytes 4 bs else if n = 1 then dropBytes 16 bs else none

/-- The bytes are a value of the form of the attribute: a reader takes them and nothing else. -/
def InForm (attr : ℕ) (bs : List UInt8) : Prop :=
  ∃ f, wireForm attr = some f ∧ ∀ rest, f.skip (bs ++ rest) = some rest

/-- A client decodes the attributes one after the other. -/
def consume : List ℕ → List UInt8 → Option (List UInt8)
  | [], bs => some bs
  | n :: ns, bs => (wireForm n).bind fun f => (f.skip bs).bind (consume ns)

theorem consume_values {value} (ns : List ℕ)
    (h : ∀ n ∈ ns, InForm n (value n)) : consume ns (ns.flatMap value) = some [] := by
  induction ns with
  | nil => rfl
  | cons n ns ih =>
    obtain ⟨f, hf, hskip⟩ := h n List.mem_cons_self
    rw [List.flatMap_cons, consume, hf, Option.bind_some, hskip, Option.bind_some]
    exact ih fun m hm => h m (List.mem_cons_of_mem n hm)

theorem dropBytes_append {n bs} (h : bs.length = n) (rest : List UInt8) :
    dropBytes n (bs ++ rest) = some rest := by
  subst h
  rw [dropBytes, if_neg (by rw [List.length_append]; omega), List.drop_left]

/-- A value that is sent in its form: what is counted fits the count. -/
def Value.Small : Value → Prop
  | bits b => b.length ≤ 2
  | blob b => b.length ≤ 128
  | _ => True

theorem length_pad (b : List UInt8) : (opaqueFixed b).length = b.length + pad b.length := by
  rw [opaqueFixed, List.length_append, List.length_replicate]

theorem length_words (b : Bitmap) : (b.flatMap uint32).length = 4 * b.length := by
  induction b with
  | nil => rfl
  | cons w b ih =>
    rw [List.flatMap_cons, List.length_append, ih, length_uint32, List.length_cons]
    omega

theorem toNat_ofNat_small {n} (h : n ≤ 128) : (UInt32.ofNat n).toNat = n := by
  rw [UInt32.toNat_ofNat']
  omega

theorem Value.skip_encode {v : Value} (h : v.Small) (rest : List UInt8) :
    v.form.skip (v.encode ++ rest) = some rest := by
  cases v with
  | word | hyper | fsid | time | specdata => exact dropBytes_append rfl rest
  | flag v =>
    have hn : (headUint32 (XdrCodec.bool v ++ rest)).toNat ≤ 1 := by
      rw [XdrCodec.bool, headUint32_uint32]
      cases v <;> decide
    exact (if_pos hn).trans (dropBytes_append rfl rest)
  | bits b =>
    have hb : b.length ≤ 128 := Nat.le_trans h (by decide)
    simp only [form, Form.skip, encode, encodeBitmap, List.append_assoc, headUint32_uint32]
    rw [dropBytes_append (length_uint32 _), Option.bind_some, toNat_ofNat_small hb]
    exact dropBytes_append (length_words b) rest
  | blob b =>
    simp only [form, Form.skip, encode, opaqueVar, List.append_assoc, headUint32_uint32]
    rw [dropBytes_append (length_uint32 _), Option.bind_some, toNat_ofNat_small h]
    exact dropBytes_append (length_pad b) rest

theorem Value.length_encode {v : Value} (h : v.Small) :
    4 ∣ v.encode.length ∧ v.encode.length ≤ 136 := by
  cases v with
  | word | flag => exact ⟨⟨1, rfl⟩, show 4 ≤ 136 by decide⟩
  | hyper | specdata => exact ⟨⟨2, rfl⟩, show 8 ≤ 136 by decide⟩
  | time => exact ⟨⟨3, rfl⟩, show 12 ≤ 136 by decide⟩
  | fsid => exact ⟨⟨4, rfl⟩, show 16 ≤ 136 by decide⟩
  | bits b =>
    simp only [Small] at h
    simp only [encode, encodeBitmap, List.length_append, length_words, length_uint32]
    omega
  | blob b =>
    simp only [Small] at h
    simp only [encode, opaqueVar, List.length_append, length_pad, length_uint32, pad]
    omega

end Forms

section Bits

theorem toNat_bit (n : ℕ) : (bit n).toNat = 2 ^ (n % 32) := by
  have hlt : n % 32 < 32 := Nat.mod_lt _ (by decide)
  have hpow : 2 ^ (n % 32) < 2 ^ 32 := Nat.pow_lt_pow_right (by decide) hlt
  rw [bit, UInt32.toNat_shiftLeft, UInt32.toNat_ofNat']
  simp only [UInt32.reduceToNat, Nat.shiftLeft_eq, Nat.one_mul]
  rw [Nat.mod_eq_of_lt (by omega : n % 32 < 2 ^ 32), Nat.mod_eq_of_lt hlt, Nat.mod_eq_of_lt hpow]

theorem has_eq_testBit (b : Bitmap) (n : ℕ) :
    has b n = (b.getD (n / 32) 0).toNat.testBit (n % 32) := by
  unfold has
  generalize b.getD (n / 32) 0 = w
  have hzero : w &&& bit n = 0 ↔ w.toNat &&& 2 ^ (n % 32) = 0 := by
    rw [← UInt32.toNat_inj, UInt32.toNat_and, toNat_bit]
    rfl
  rw [Bool.eq_iff_iff, bne_iff_ne, ne_eq, hzero, Nat.and_two_pow]
  cases w.toNat.testBit (n % 32) <;> simp

theorem getD_setBit (b : Bitmap) (n k : ℕ) :
    (setBit b n).getD k 0 = if k = n / 32 then b.getD k 0 ||| bit n else b.getD k 0 := by
  have hpad : (b ++ List.replicate (n / 32 + 1 - b.length) 0)[k]?.getD 0 = b[k]?.getD 0 := by
    rw [List.getElem?_append]
    split
    · rfl
    rename_i hk
    rw [List.getElem?_eq_none (Nat.le_of_not_lt hk), List.getElem?_replicate]
    split <;> rfl
  rw [List.getD_eq_getElem?_getD, List.getD_eq_getElem?_getD, setBit, List.getElem?_modify]
  split
  · rename_i hk
    subst hk
    rw [if_pos rfl, ← hpad]
    have hlt : n / 32 < (b ++ List.replicate (n / 32 + 1 - b.length) (0 : UInt32)).length := by
      rw [List.length_append, List.length_replicate]
      omega
    rw [List.getElem?_eq_getElem hlt]
    rfl
  · rename_i hk
    rw [if_neg (Ne.symm hk), ← hpad, Option.map_eq_map, Option.map_id']

theorem has_setBit (b : Bitmap) (n m : ℕ) : has (setBit b n) m = (has b m || m == n) := by
  rw [has_eq_testBit, has_eq_testBit, getD_setBit]
  by_cases hw : m / 32 = n / 32
  · rw [if_pos hw, UInt32.toNat_or, Nat.testBit_or, toNat_bit, Nat.testBit_two_pow]
    have hmn : n % 32 = m % 32 ↔ m = n := by omega
    simp only [hmn, beq_eq_decide]
  · have hmn : m ≠ n := fun h => hw (h ▸ rfl)
    rw [if_neg hw, beq_false_of_ne hmn, Bool.or_false]

theorem has_foldl_setBit (ns : List ℕ) (b : Bitmap) (n : ℕ) :
    has (ns.foldl setBit b) n = true ↔ has b n = true ∨ n ∈ ns := by
  induction ns generalizing b with
  | nil => simp
  | cons m ns ih =>
    rw [List.foldl_cons, ih, has_setBit, List.mem_cons, Bool.or_eq_true, beq_iff_eq, or_assoc]

theorem has_supportedAttrs (s : Server) (n : ℕ) : has (supportedAttrs s) n = true ↔
    n ∈ commonAttrs ∨ s.statVFSFS = true ∧ n ∈ vfsAttrs ∨
      s.setStatFS = true ∧ n ∈ setTimeAttrs := by
  rw [supportedAttrs, has_foldl_setBit, List.mem_append, List.mem_append, or_assoc]
  have hnil : has [] n = false := by
    rw [has_eq_testBit]
    exact Nat.zero_testBit _
  cases s.statVFSFS <;> cases s.setStatFS <;> simp [hnil]

theorem supported_lt (s : Server) {n} (h : has (supportedAttrs s) n = true) : n < 56 := by
  have hlt : ∀ m ∈ commonAttrs ++ vfsAttrs ++ setTimeAttrs, m < 56 := by decide
  refine hlt n ?_
  rw [List.mem_append, List.mem_append]
  rcases (has_supportedAttrs s n).1 h with h | ⟨-, h⟩ | ⟨-, h⟩
  · exact .inl (.inl h)
  · exact .inl (.inr h)
  · exact .inr h

theorem has_grantedAttrs (requested : Bitmap) (s : Server) (n : ℕ) :
    has (grantedAttrs requested (supportedAttrs s)) n =
      (has requested n && has (supportedAttrs s) n) := by
  have hnil : has [] n ≠ true := by
    rw [has_eq_testBit]
    exact Bool.eq_false_iff.1 (Nat.zero_testBit _)
  rw [Bool.eq_iff_iff, grantedAttrs, has_foldl_setBit, List.mem_filter, List.mem_range]
  constructor
  · rintro (h | ⟨-, h⟩)
    · exact absurd h hnil
    · exact h
  · intro h
    exact .inr ⟨supported_lt s (Bool.and_eq_true_iff.1 h).2, h⟩

end Bits

section Fattr

variable (a : AttrCtx)

theorem length_supportedAttrs (s : Server) : (supportedAttrs s).length ≤ 2 := by
  unfold supportedAttrs
  cases s.statVFSFS <;> cases s.setStatFS <;> decide

theorem attrValue_small {n v} (h : attrValue a n = some v) : v.Small := by
  unfold attrValue at h
  split at h <;> cases h
  all_goals first
    | exact trivial
    | exact length_supportedAttrs a.s
    | exact a.handle_short
    | exact (by decide : 1 ≤ 128)

theorem attrValue_form {n} (h : n ∈ commonAttrs ∨ n ∈ vfsAttrs) :
    ∃ v, attrValue a n = some v ∧ wireForm n = some v.form := by
  have hmap : (commonAttrs ++ vfsAttrs).map (fun n => (attrValue a n).map Value.form) =
      (commonAttrs ++ vfsAttrs).map wireForm := rfl
  have hsome : ∀ m ∈ commonAttrs ++ vfsAttrs, (wireForm m).isSome = true := by decide
  have hmem := List.mem_append.2 h
  have hform := List.map_inj_left.1 hmap n hmem
  obtain ⟨f, hf⟩ := Option.isSome_iff_exists.1 (hsome n hmem)
  rw [hf] at hform
  obtain ⟨v, hv, rfl⟩ := Option.map_eq_some_iff.1 hform
  exact ⟨v, hv, hf⟩

theorem inForm_of_common {n} (h : n ∈ commonAttrs ∨ n ∈ vfsAttrs) :
    InForm n (encodeAttrValue a n) := by
  obtain ⟨v, hv, hf⟩ := attrValue_form a h
  refine ⟨v.form, hf, fun rest => ?_⟩
  rw [encodeAttrValue, hv]
  exact Value.skip_encode (attrValue_small a hv) rest

theorem not_inForm_setTime {n} (h : n ∈ setTimeAttrs) : ¬ InForm n (encodeAttrValue a n) := by
  rintro ⟨f, hf, hskip⟩
  have hempty := hskip []
  rcases List.mem_pair.1 h with rfl | rfl
  · cases hf
    cases hempty
  · cases hf
    cases hempty

theorem length_values (ns : List ℕ) : 4 ∣ (ns.flatMap (encodeAttrValue a)).length ∧
    (ns.flatMap (encodeAttrValue a)).length ≤ 136 * ns.length := by
  induction ns with
  | nil => exact ⟨⟨0, rfl⟩, Nat.le_refl _⟩
  | cons n ns ih =>
    have hn : 4 ∣ (encodeAttrValue a n).length ∧ (encodeAttrValue a n).length ≤ 136 := by
      unfold encodeAttrValue
      cases hv : attrValue a n with
      | none => exact ⟨⟨0, rfl⟩, Nat.zero_le _⟩
      | some v => exact Value.length_encode (attrValue_small a hv)
    rw [List.flatMap_cons, List.length_append, List.length_cons]
    omega

theorem fattr_self_describing_iff (e : List UInt8) (requested : Bitmap) :
    let granted := grantedAttrs requested (supportedAttrs a.s)
    let content := (attrs granted).flatMap (encodeAttrValue a)
    encodeFattr e requested a = e ++ (encodeBitmap granted ++
        (uint32 (UInt32.ofNat content.length) ++ content)) ∧
      (∀ n, has granted n = (has requested n && has (supportedAttrs a.s) n)) ∧
      (UInt32.ofNat content.length).toNat = content.length ∧ 4 ∣ content.length ∧
      ((∀ n, has granted n = true → InForm n (encodeAttrValue a n)) ↔
        ¬ (a.s.setStatFS = true ∧ (has requested 48 = true ∨ has requested 54 = true))) ∧
      ((∀ n, has granted n = true → InForm n (encodeAttrValue a n)) →
        consume (attrs granted) content = some []) := by
  intro granted content
  have hgranted : ∀ n, has granted n = (has requested n && has (supportedAttrs a.s) n) :=
    has_grantedAttrs requested a.s
  obtain ⟨hdvd, hle⟩ := length_values a (attrs granted)
  refine ⟨?_, hgranted, ?_, hdvd, ⟨?_, ?_⟩, ?_⟩
  · unfold encodeFattr
    simp only [List.length_append, Nat.add_sub_cancel_left]
    rw [← List.length_append, List.append_assoc, patchUint32_append, List.append_assoc]
  · have hlen : (attrs granted).length ≤ 56 :=
      Nat.le_trans (List.length_filter_le _ _) (Nat.le_of_eq List.length_range)
    rw [UInt32.toNat_ofNat']
    exact Nat.mod_eq_of_lt (Nat.lt_of_le_of_lt hle (by omega))
  · rintro hall ⟨hset, hreq⟩
    have hbad : ∀ n, n ∈ setTimeAttrs → has requested n = true → False := by
      intro n hn hr
      refine not_inForm_setTime a hn (hall n ?_)
      rw [hgranted, hr, Bool.true_and]
      exact (has_supportedAttrs a.s n).2 (.inr (.inr ⟨hset, hn⟩))
    rcases hreq with hr | hr
    · exact hbad 48 (by decide) hr
    · exact hbad 54 (by decide) hr
  · intro hno n hn
    rw [hgranted, Bool.and_eq_true_iff] at hn
    rcases (has_supportedAttrs a.s n).1 hn.2 with h | ⟨-, h⟩ | ⟨hset, h⟩
    · exact inForm_of_common a (.inl h)
    · exact inForm_of_common a (.inr h)
    · refine absurd ⟨hset, ?_⟩ hno
      rcases List.mem_pair.1 h with rfl | rfl
      · exact .inl hn.1
      · exact .inr hn.1
  · intro hall
    exact consume_values _ fun n hn => hall n (List.mem_filter.1 hn).2

end Fattr

/-- A server whose FileSystem can set times, and a regular file. -/
def settable : AttrCtx where
  s := ⟨false, false, false, true, 90, 65536, 65536⟩
  path := []
  fi := ⟨0, 0, 0, 0, 420, false, false⟩
  vfs := none
  handle := []
  handle_short := by decide

/-- A request for `time_access_set` is granted with an empty opaque, which holds no value. -/
theorem granted_without_value :
    encodeFattr [] [0, 65536] settable = encodeBitmap [0, 65536] ++ uint32 0 ∧
      attrs [0, 65536] = [48] ∧ consume [48] [] = none := by
  decide +kernel

end NfsAttr
