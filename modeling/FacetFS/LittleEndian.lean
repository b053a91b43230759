import Mathlib

/-! # Little-endian integers in a byte string

Reading takes the bytes from an offset on. A string that is too short reads as if it went on with
zeros; the callers check lengths before they read. -/
namespace LittleEndian

def value : List UInt8 → ℕ
  | [] => 0
  | b :: bs => b.toNat + 256 * value bs

def uint16 (b : List UInt8) (off : ℕ) : UInt16 := UInt16.ofNat (value ((b.drop off).take 2))
def uint32 (b : List UInt8) (off : ℕ) : UInt32 := UInt32.ofNat (value ((b.drop off).take 4))
def uint64 (b : List UInt8) (off : ℕ) : UInt64 := UInt64.ofNat (value ((b.drop off).take 8))

def bytes : ℕ → ℕ → List UInt8
  | 0, _ => []
  | n + 1, v => UInt8.ofNat (v % 256) :: bytes n (v / 256)

def put (b : List UInt8) (off : ℕ) (v : List UInt8) : List UInt8 :=
  b.take off ++ v ++ b.drop (off + v.length)

theorem value_bytes (n v : ℕ) : value (bytes n v) = v % 256 ^ n := by
  induction n generalizing v with
  | zero =>
    rw [Nat.pow_zero, Nat.mod_one]
    rfl
  | succ n ih =>
    rw [bytes, value, ih, Nat.pow_succ', Nat.mod_mul, UInt8.toNat_ofNat']
    simp

end LittleEndian
