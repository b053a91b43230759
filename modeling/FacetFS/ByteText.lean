import Mathlib

/-! Text as a list of bytes, with the searching, trimming and splitting the servers do on it. -/
namespace ByteText

abbrev Text := List UInt8

instance textLawful : LawfulBEq Text := inferInstance

def text (cs : List Char) : Text := cs.map Char.toUInt8

def hasPrefix (s t : Text) : Bool := t.isPrefixOf s

def trimPrefix (s t : Text) : Text := if hasPrefix s t then s.drop t.length else s

def contains (s t : Text) : Bool := s.tails.any (hasPrefix · t)

def split (c : UInt8) : Text → List Text
  | [] => [[]]
  | b :: bs =>
    if b = c then [] :: split c bs
    else
      match split c bs with
      | [] => [[b]]
      | piece :: pieces => (b :: piece) :: pieces

def join (c : UInt8) : List Text → Text
  | [] => []
  | [s] => s
  | s :: ss => s ++ c :: join c ss

def trimByte (c : UInt8) (s : Text) : Text :=
  ((s.dropWhile (· = c)).reverse.dropWhile (· = c)).reverse

/-- The part before the first `c` and the part after it. -/
def cut (c : UInt8) : Text → Option (Text × Text)
  | [] => none
  | b :: bs => if b = c then some ([], bs) else (cut c bs).map fun r => (b :: r.1, r.2)

def toLower (s : Text) : Text := s.map fun b => if 65 ≤ b ∧ b ≤ 90 then b + 32 else b

def equalFold (s t : Text) : Bool := toLower s == toLower t

/-- The encodings of the code points that count as white space. -/
def spaces : List Text :=
  [[0x09], [0x0a], [0x0b], [0x0c], [0x0d], [0x20], [0xc2, 0x85], [0xc2, 0xa0],
    [0xe1, 0x9a, 0x80], [0xe2, 0x80, 0x80], [0xe2, 0x80, 0x81], [0xe2, 0x80, 0x82],
    [0xe2, 0x80, 0x83], [0xe2, 0x80, 0x84], [0xe2, 0x80, 0x85], [0xe2, 0x80, 0x86],
    [0xe2, 0x80, 0x87], [0xe2, 0x80, 0x88], [0xe2, 0x80, 0x89], [0xe2, 0x80, 0x8a],
    [0xe2, 0x80, 0xa8], [0xe2, 0x80, 0xa9], [0xe2, 0x80, 0xaf], [0xe2, 0x81, 0x9f],
    [0xe3, 0x80, 0x80]]

/-- Drops what matches one of `seps` at the front, as long as something does. -/
def dropAny (seps : List Text) : ℕ → Text → Text
  | 0, s => s
  | fuel + 1, s =>
    match seps.find? (hasPrefix s ·) with
    | none => s
    | some sep => dropAny seps fuel (s.drop sep.length)

def trimSpace (s : Text) : Text :=
  let front := dropAny spaces s.length s
  (dropAny (spaces.map List.reverse) front.length front.reverse).reverse

/-- The path a rooted text names: empty and `.` segments go, `..` takes one back. -/
def cleanSegments (segments : List Text) : List Text :=
  segments.foldl (fun kept s =>
    if s = [] ∨ s = text ['.'] then kept
    else if s = text ['.', '.'] then kept.dropLast
    else kept ++ [s]) []

def hex (n : ℕ) : Text := text (Nat.toDigits 16 n)

def hexInt (n : Int) : Text := if n < 0 then text ['-'] ++ hex n.natAbs else hex n.natAbs

/-- The length of the encoding that starts with these bytes, if they are one. -/
def runeLength : Text → Option ℕ
  | b :: rest =>
    let tail (k : ℕ) := (rest.take k).length = k ∧ (rest.take k).all fun c => 0x80 ≤ c && c ≤ 0xbf
    let second (lo hi : UInt8) := (rest.headD 0) ≥ lo ∧ (rest.headD 0) ≤ hi
    if b < 0x80 then some 1
    else if 0xc2 ≤ b ∧ b ≤ 0xdf ∧ tail 1 then some 2
    else if b = 0xe0 ∧ second 0xa0 0xbf ∧ tail 2 then some 3
    else if b = 0xed ∧ second 0x80 0x9f ∧ tail 2 then some 3
    else if 0xe1 ≤ b ∧ b ≤ 0xef ∧ b ≠ 0xed ∧ tail 2 then some 3
    else if b = 0xf0 ∧ second 0x90 0xbf ∧ tail 3 then some 4
    else if b = 0xf4 ∧ second 0x80 0x8f ∧ tail 3 then some 4
    else if 0xf1 ≤ b ∧ b ≤ 0xf3 ∧ tail 3 then some 4
    else none
  | [] => none

def validFrom : ℕ → Text → Bool
  | _, [] => true
  | 0, _ => false
  | fuel + 1, s =>
    match runeLength s with
    | none => false
    | some n => validFrom fuel (s.drop n)

def validString (s : Text) : Bool := validFrom s.length s

example : trimSpace (text [' ', 'a', ' ', 'b', ' ']) = text ['a', ' ', 'b'] := by decide +kernel

end ByteText
