import Mathlib

/-! # The XDR primitives

An encoder is the list of bytes it appended so far; these are the values its calls
append. Lengths that the source casts to `uint32` are below that bound. A decoder is the bytes
it has left; its first failure sticks, and every value it returns afterwards is zero. -/
namespace XdrCodec

def pad (n : ℕ) : ℕ := (4 - n % 4) % 4

def uint32 (v : UInt32) : List UInt8 :=
  [UInt8.ofNat (v.toNat / 2 ^ 24), UInt8.ofNat (v.toNat / 2 ^ 16),
    UInt8.ofNat (v.toNat / 2 ^ 8), UInt8.ofNat v.toNat]

/-- The big-endian word at the head of a buffer, zero when the buffer is too short. -/
def headUint32 : List UInt8 → UInt32
  | a :: b :: c :: d :: _ =>
    UInt32.ofNat (a.toNat * 2 ^ 24 + b.toNat * 2 ^ 16 + c.toNat * 2 ^ 8 + d.toNat)
  | _ => 0

def uint64 (v : UInt64) : List UInt8 :=
  uint32 (UInt32.ofNat (v.toNat / 2 ^ 32)) ++ uint32 (UInt32.ofNat v.toNat)

def bool (v : Bool) : List UInt8 := uint32 (if v then 1 else 0)

def opaqueFixed (b : List UInt8) : List UInt8 := b ++ List.replicate (pad b.length) 0

/-- A variable-length opaque: its length, then its padded bytes. -/
def opaqueVar (b : List UInt8) : List UInt8 :=
  uint32 (UInt32.ofNat b.length) ++ opaqueFixed b

def string (s : String) : List UInt8 := opaqueVar s.toUTF8.toList

theorem headUint32_uint32 (v : UInt32) (rest : List UInt8) : headUint32 (uint32 v ++ rest) = v := by
  have hv := v.toNat_lt
  apply UInt32.toNat_inj.mp
  simp only [uint32, List.cons_append, List.nil_append, headUint32, UInt32.toNat_ofNat',
    UInt8.toNat_ofNat']
  omega

theorem uint32_append_inj {v w a b} (h : uint32 v ++ a = uint32 w ++ b) : v = w ∧ a = b := by
  have hv : v = w := by
    have := congrArg headUint32 h
    rwa [headUint32_uint32, headUint32_uint32] at this
  subst hv
  exact ⟨rfl, List.append_cancel_left h⟩

theorem uint64_injective {v w} (h : uint64 v = uint64 w) : v = w := by
  obtain ⟨hhi, hrest⟩ := uint32_append_inj h
  have hlo : UInt32.ofNat v.toNat = UInt32.ofNat w.toNat := by
    rw [← headUint32_uint32 (UInt32.ofNat v.toNat) [], ← headUint32_uint32 (UInt32.ofNat w.toNat) [],
      List.append_nil, List.append_nil, hrest]
  have hv := v.toNat_lt
  have hw := w.toNat_lt
  have h₁ := congrArg UInt32.toNat hhi
  have h₂ := congrArg UInt32.toNat hlo
  simp only [UInt32.toNat_ofNat'] at h₁ h₂
  apply UInt64.toNat_inj.mp
  omega

/-- Discards everything encoded after an offset. -/
def truncate (e : List UInt8) (n : ℕ) : List UInt8 := e.take n

/-- Overwrites the word at an offset. -/
def patchUint32 (e : List UInt8) (n : ℕ) (v : UInt32) : List UInt8 :=
  e.take n ++ uint32 v ++ e.drop (n + 4)

@[simp]
theorem length_uint32 (v : UInt32) : (uint32 v).length = 4 := rfl

theorem truncate_append (a b : List UInt8) : truncate (a ++ b) a.length = a :=
  List.take_left

theorem patchUint32_append (a b : List UInt8) (v w : UInt32) :
    patchUint32 (a ++ (uint32 v ++ b)) a.length w = a ++ (uint32 w ++ b) := by
  have hdrop : (a ++ (uint32 v ++ b)).drop (a.length + 4) = b := by
    rw [List.drop_append, List.drop_eq_nil_of_le (by omega), List.nil_append,
      Nat.add_sub_cancel_left]
    rfl
  rw [patchUint32, List.take_left, hdrop, List.append_assoc]

structure Decoder where
  rest : List UInt8
  failed : Bool
  deriving DecidableEq

namespace Decoder

variable (d : Decoder)

def fail : Decoder := { d with failed := true }

def uint32 : UInt32 × Decoder :=
  if d.failed then (0, d)
  else if d.rest.length < 4 then (0, d.fail)
  else (headUint32 d.rest, { d with rest := d.rest.drop 4 })

def uint64 : UInt64 × Decoder :=
  if d.failed then (0, d)
  else if d.rest.length < 8 then (0, d.fail)
  else
    (UInt64.ofNat ((headUint32 d.rest).toNat * 2 ^ 32 + (headUint32 (d.rest.drop 4)).toNat),
      { d with rest := d.rest.drop 8 })

def opaqueFixed (n : ℕ) : List UInt8 × Decoder :=
  if d.failed then ([], d)
  else if d.rest.length < n + pad n then ([], d.fail)
  else (d.rest.take n, { d with rest := d.rest.drop (n + pad n) })

/-- As many bytes as the word before them says, up to a bound. -/
def opaqueVar (max : ℕ) : List UInt8 × Decoder :=
  let (n, d) := d.uint32
  if d.failed then ([], d)
  else if n.toNat > max then ([], d.fail)
  else d.opaqueFixed n.toNat

def words : ℕ → Decoder → List UInt32 × Decoder
  | 0, d => ([], d)
  | n + 1, d =>
    let (v, d) := d.uint32
    let (vs, d) := words n d
    (v :: vs, d)

end Decoder

end XdrCodec
