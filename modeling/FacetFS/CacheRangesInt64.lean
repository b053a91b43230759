import FacetFS.CacheRanges

/-! # Range sets over machine integers

The operations as they are computed, with every sum and difference wrapped to 64 bits. As long as
the ranges that are inserted and removed begin at a byte and end at one, nothing wraps, and the
operations are those of `CacheRanges`. -/
namespace CacheRangesInt64

open CacheRanges

section Operations

def wrap (x : Int) : Int := Int.bmod x (2 ^ 64)

def stop (r : Rng) : Int := wrap (r.pos + r.size)

def insert (s : RangeSet) (r : Rng) : RangeSet :=
  if r.size ≤ 0 then s
  else
    let left := s.takeWhile fun e => stop e < r.pos
    let rest := s.dropWhile fun e => stop e < r.pos
    let mid := rest.takeWhile fun e => e.pos ≤ stop r
    let right := rest.dropWhile fun e => e.pos ≤ stop r
    match mid.head?, mid.getLast? with
    | some first, some last =>
      let pos := min r.pos first.pos
      let last := max (stop r) (stop last)
      left ++ ⟨pos, wrap (last - pos)⟩ :: right
    | _, _ => left ++ r :: right

def removeFrom (r : Rng) : List Rng → List Rng
  | [] => []
  | e :: es =>
    if e.pos ≥ stop r then e :: es
    else
      (if e.pos < r.pos then [⟨e.pos, wrap (r.pos - e.pos)⟩] else []) ++
        (if stop e > stop r then [⟨stop r, wrap (stop e - stop r)⟩] else []) ++ removeFrom r es

def remove (s : RangeSet) (r : Rng) : RangeSet :=
  if r.size ≤ 0 then s
  else
    s.takeWhile (fun e => stop e ≤ r.pos) ++ removeFrom r (s.dropWhile fun e => stop e ≤ r.pos)

def search (s : RangeSet) (pos : Int) : Option Rng := s.find? fun e => pos < stop e

def present (s : RangeSet) (r : Rng) : Bool :=
  if r.size ≤ 0 then true
  else
    match search s r.pos with
    | none => false
    | some e => e.pos ≤ r.pos && stop r ≤ stop e

def findMissing (s : RangeSet) (r : Rng) : Rng :=
  if r.size ≤ 0 then ⟨r.pos, 0⟩
  else
    match search s r.pos with
    | none => r
    | some e =>
      if e.pos ≤ r.pos then
        let covered := wrap (stop e - r.pos)
        if covered ≥ r.size then ⟨stop r, 0⟩
        else ⟨wrap (r.pos + covered), wrap (r.size - covered)⟩
      else r

/-- The rounds of the search for missing parts; nothing if they do not come to an end. -/
def missingFrom (s : RangeSet) (last : Int) : ℕ → Int → Option (List Rng)
  | 0, pos => if pos < last then none else some []
  | fuel + 1, pos =>
    if pos < last then
      let m := findMissing s ⟨pos, wrap (last - pos)⟩
      if m.size = 0 then some []
      else
        let runEnd := match search s m.pos with
          | some e => if e.pos < stop m then e.pos else stop m
          | none => stop m
        (missingFrom s last fuel runEnd).map (⟨m.pos, wrap (runEnd - m.pos)⟩ :: ·)
    else some []

def missingWithin (s : RangeSet) (r : Rng) : Option (List Rng) :=
  missingFrom s (stop r) (s.length + 1) r.pos

def size (s : RangeSet) : Int := s.foldl (fun n e => wrap (n + e.size)) 0

/-- A call that changes the set. -/
inductive Change where
  | insert (r : Rng)
  | remove (r : Rng)

def Change.rng : Change → Rng
  | .insert r => r
  | .remove r => r

def apply (s : RangeSet) : Change → RangeSet
  | .insert r => insert s r
  | .remove r => remove s r

/-- The two numbers are 64-bit values. -/
structure Word (r : Rng) : Prop where
  pos_ge : -2 ^ 63 ≤ r.pos
  pos_lt : r.pos < 2 ^ 63
  size_ge : -2 ^ 63 ≤ r.size
  size_lt : r.size < 2 ^ 63

def Ends (r : Rng) : Prop := r.pos + r.size < 2 ^ 63

end Operations

section Words

variable {s : RangeSet} {r e : Rng}

theorem wrap_eq {x} (h : -2 ^ 63 ≤ x) (h' : x < 2 ^ 63) : wrap x = x := by
  rw [wrap, Int.bmod_eq_of_le]
  · norm_num at h ⊢
    omega
  · norm_num at h' ⊢
    omega

/-- A range that begins at a byte and ends at one. -/
structure Fits (r : Rng) : Prop where
  pos_nonneg : 0 ≤ r.pos
  stop_lt : r.stop < 2 ^ 63

theorem Fits.stop_eq (h : Fits r) (hr : 0 < r.size) : stop r = r.stop := by
  have := h.stop_lt
  have := h.pos_nonneg
  simp only [Rng.stop] at *
  exact wrap_eq (by omega) (by omega)

/-- The entries of a set are not empty and lie within the bytes. -/
structure Holds (s : RangeSet) : Prop where
  normal : Normal s
  fits : ∀ e ∈ s, Fits e

theorem Holds.stop_eq (h : Holds s) (he : e ∈ s) : stop e = e.stop :=
  (h.fits e he).stop_eq (h.normal.nonempty e he)

theorem Holds.dropWhile (h : Holds s) (p : Rng → Bool) : Holds (s.dropWhile p) :=
  ⟨(h.normal.takeWhile_dropWhile p).2.1, fun e he => h.fits e ((List.dropWhile_sublist p).subset he)⟩

theorem Ends.stop_eq (h : Ends r) (hw : Word r) (hr : 0 < r.size) : stop r = r.stop := by
  have := hw.pos_ge
  simp only [Ends] at h
  exact wrap_eq (by omega) h

end Words

section Refinement

variable {s : RangeSet} {r : Rng}

theorem holds_of_has (h : Normal s) (hb : ∀ x, Has s x → 0 ≤ x ∧ x + 1 < 2 ^ 63) : Holds s := by
  refine ⟨h, fun e he => ?_⟩
  have hsize := h.nonempty e he
  have hfirst := hb e.pos ⟨e, he, le_refl _, by simp only [Rng.stop]; omega⟩
  have hlast := hb (e.stop - 1) ⟨e, he, by simp only [Rng.stop]; omega, by omega⟩
  exact ⟨hfirst.1, by omega⟩

theorem Holds.byte (h : Holds s) {x} (hx : Has s x) : 0 ≤ x ∧ x + 1 < 2 ^ 63 := by
  obtain ⟨e, he, h₁, h₂⟩ := hx
  have h₃ := (h.fits e he).pos_nonneg
  have h₄ := (h.fits e he).stop_lt
  omega

theorem Fits.byte (h : Fits r) {x} (hx : r.Has x) : 0 ≤ x ∧ x + 1 < 2 ^ 63 := by
  have h₁ := h.pos_nonneg
  have h₂ := h.stop_lt
  have h₃ := hx.1
  have h₄ := hx.2
  omega

theorem Holds.insert (h : Holds s) (hr : Fits r) : Holds (CacheRanges.insert s r) := by
  refine holds_of_has (h.normal.insert r) fun x hx => ?_
  rcases (has_insert h.normal x).1 hx with hx | hx
  · exact h.byte hx
  · exact hr.byte hx

theorem Holds.remove (h : Holds s) (r : Rng) : Holds (CacheRanges.remove s r) :=
  holds_of_has (h.normal.remove r) fun x hx => h.byte ((has_remove h.normal r x).1 hx).1

/-- What is left of a range when the bytes up to the first one outside of the set are cut off. -/
structure FirstOutside (b : Finset Int) (r m : Rng) : Prop where
  empty_iff : m.size = 0 ↔ ∀ x, r.Has x → x ∈ b
  first : m.size ≠ 0 → r.Has m.pos ∧ m.pos ∉ b ∧ m.stop = r.stop ∧
    ∀ x, r.pos ≤ x → x < m.pos → x ∈ b

/-- A sorted list of ranges that do not touch holds a set of bytes and answers for it. -/
structure Refines (s : RangeSet) (b : Finset Int) : Prop where
  normal : Normal s
  bytes : ∀ x, Has s x ↔ x ∈ b
  size : size s = b.card
  present : ∀ r, Word r → Ends r → (present s r = true ↔ ∀ x, r.Has x → x ∈ b)
  findMissing : ∀ r, Word r → Ends r → FirstOutside b r (findMissing s r)
  missingWithin : ∀ r, Word r → Ends r → ∃ ms, missingWithin s r = some ms ∧ Normal ms ∧
    ∀ x, Has ms x ↔ r.Has x ∧ x ∉ b

end Refinement

end CacheRangesInt64
