import FacetFS.LittleEndian
import FacetFS.SmbState

/-! # Names on the wire

Paths arrive as UTF-16 with backslashes between the segments. A path is its list of segments, the
root being the empty list. The case mapping of the standard library is a parameter. -/
namespace SmbPath

open SmbState

def isHigh (u : UInt16) : Bool := 0xd800 ≤ u && u ≤ 0xdbff
def isLow (u : UInt16) : Bool := 0xdc00 ≤ u && u ≤ 0xdfff

def units : Bytes → List UInt16
  | a :: b :: rest => LittleEndian.uint16 [a, b] 0 :: units rest
  | _ => []

/-- The check of the decoding loop; `prev` is the unit before. -/
def validUnits : Option UInt16 → List UInt16 → Bool
  | _, [] => true
  | prev, u :: rest =>
    (if isHigh u then rest.head?.any isLow
      else if isLow u then prev.any isHigh
      else true) && validUnits (some u) rest

def replacementChar : Char := Char.ofNat 0xfffd

def pairChar (u v : UInt16) : Char :=
  Char.ofNat (0x10000 + (u.toNat - 0xd800) * 0x400 + (v.toNat - 0xdc00))

/-- The standard decoding: pairs combine, an unpaired surrogate becomes the replacement. -/
def utf16Decode : List UInt16 → Name
  | [] => []
  | [u] => [if isHigh u || isLow u then replacementChar else Char.ofNat u.toNat]
  | u :: v :: rest =>
    if isHigh u && isLow v then pairChar u v :: utf16Decode rest
    else if isHigh u || isLow u then replacementChar :: utf16Decode (v :: rest)
    else Char.ofNat u.toNat :: utf16Decode (v :: rest)

def decodeUTF16 (b : Bytes) : Option Name :=
  if b.length % 2 ≠ 0 then none
  else if validUnits none (units b) then some (utf16Decode (units b))
  else none

def encodeChar (c : Char) : List UInt16 :=
  if c.toNat < 0x10000 then [UInt16.ofNat c.toNat]
  else [UInt16.ofNat (0xd800 + (c.toNat - 0x10000) / 0x400),
    UInt16.ofNat (0xdc00 + (c.toNat - 0x10000) % 0x400)]

def utf16Bytes (s : Name) : Bytes :=
  (s.flatMap encodeChar).flatMap fun u => LittleEndian.bytes 2 u.toNat

def maxPathBytes : ℕ := 32760

def backslash : Char := Char.ofNat 0x5c

def split (c : Char) : Name → List Name
  | [] => [[]]
  | b :: bs =>
    if b = c then [] :: split c bs
    else
      match split c bs with
      | [] => [[b]]
      | piece :: pieces => (b :: piece) :: pieces

def validate (name : Name) : Bool :=
  decide ((name.map Char.utf8Size).sum ≤ 255) && name != [] && name != ['.'] &&
    name != ['.', '.'] && !name.contains '/' && !name.contains (Char.ofNat 0)

def dosNames : List Name :=
  [['C', 'O', 'N'], ['P', 'R', 'N'], ['A', 'U', 'X'], ['N', 'U', 'L']] ++
    (['1', '2', '3', '4', '5', '6', '7', '8', '9'].map fun d => ['C', 'O', 'M', d]) ++
    ['1', '2', '3', '4', '5', '6', '7', '8', '9'].map fun d => ['L', 'P', 'T', d]

def trimRight (s : Name) : Name := (s.reverse.dropWhile fun c => c = ' ' || c = '.').reverse

def validPart (toUpper : Name → Name) (part : Name) : Bool :=
  validate part && !dosNames.contains (toUpper (trimRight (part.takeWhile (· ≠ '.'))))

def cleanSegments (parts : Path) : Path :=
  parts.foldl (fun kept s =>
    if s = [] ∨ s = ['.'] then kept
    else if s = ['.', '.'] then kept.dropLast
    else kept ++ [s]) []

def smbPath (toUpper : Name → Name) (wire : Bytes) : Option Path :=
  if wire.length > maxPathBytes then none
  else
    match decodeUTF16 wire with
    | none => none
    | some s =>
      if s.head? = some backslash ∨ Char.ofNat 0 ∈ s then none
      else if s = [] then some []
      else
        let parts := split backslash s
        if !parts.all (validPart toUpper) then none
        else if cleanSegments parts ≠ parts then none
        else some parts

example : smbPath id [0x61, 0, 0x5c, 0, 0x62, 0] = some [['a'], ['b']] := by decide +kernel

section Accepted

theorem split_eq (c : Char) (s : Name) : split c s = s.splitOn c := by
  induction s with
  | nil => rfl
  | cons b s ih =>
    rw [split, ih]
    simp only [List.splitOn_eq_splitOnP, List.splitOnP_cons_eq_if_modifyHead, beq_iff_eq]
    cases h : s.splitOnP (· == c) with
    | nil => exact absurd h (List.splitOnP_ne_nil _ _)
    | cons a as => rfl

theorem not_mem_split {c : Char} {s : Name} : ∀ part ∈ split c s, c ∉ part := by
  fun_induction split c s <;> grind

/-- An accepted name is its segments with backslashes in between. None of them is empty, stands for
this or the parent directory, or holds a separator. -/
theorem smbPath_confined {toUpper wire p} (h : smbPath toUpper wire = some p) :
    decodeUTF16 wire = some ([backslash].intercalate p) ∧ cleanSegments p = p ∧ ∀ s ∈ p,
      s ≠ [] ∧ s ≠ ['.'] ∧ s ≠ ['.', '.'] ∧ '/' ∉ s ∧ backslash ∉ s ∧ Char.ofNat 0 ∉ s ∧
        toUpper (trimRight (s.takeWhile (· ≠ '.'))) ∉ dosNames := by
  unfold smbPath at h
  split_ifs at h with hlen
  split at h
  · cases h
  rename_i s hs
  rw [hs]
  split_ifs at h with hbad hnil
  · cases h
    exact ⟨by rw [hnil]; rfl, rfl, by simp⟩
  simp only at h
  split_ifs at h with hvalid hclean
  cases h
  rw [not_not] at hclean
  refine ⟨?_, hclean, fun part hpart => ?_⟩
  · rw [split_eq, List.intercalate_splitOn]
  have hpart' : validPart toUpper part = true := by
    simp at hvalid
    exact hvalid part hpart
  simp only [validPart, validate, Bool.and_eq_true, bne_iff_ne, Bool.not_eq_true',
    List.contains_eq_mem, decide_eq_false_iff_not] at hpart'
  obtain ⟨⟨⟨⟨⟨⟨-, h₁⟩, h₂⟩, h₃⟩, h₄⟩, h₅⟩, h₆⟩ := hpart'
  exact ⟨h₁, h₂, h₃, h₄, not_mem_split part hpart, h₅, h₆⟩

theorem smbPath_confined_two : cleanSegments [['a'], ['b']] = [['a'], ['b']] := by
  have h : smbPath id [0x61, 0, 0x5c, 0, 0x62, 0] = some [['a'], ['b']] := by decide +kernel
  exact (smbPath_confined h).2.1

end Accepted

end SmbPath
