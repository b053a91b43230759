import FacetFS.ByteText

/-! # Path segments

What the protocol packages accept as the name of one directory entry. -/
namespace Names

open ByteText

def slash : UInt8 := 0x2f

/-- Whether a name is acceptable as a single path segment. -/
def validate (name : Text) : Bool :=
  name.length ≤ 255 && !(name == [] || name == text ['.'] || name == text ['.', '.'] ||
    !validString name || slash ∈ name || 0 ∈ name)

/-- The rules for a segment, one by one. -/
structure Segment (name : Text) : Prop where
  short : name.length ≤ 255
  nonEmpty : name ≠ []
  notDot : name ≠ text ['.']
  notDotDot : name ≠ text ['.', '.']
  utf8 : validString name = true
  noSlash : slash ∉ name
  noNul : 0 ∉ name

theorem validate_iff (name : Text) : validate name = true ↔ Segment name := by
  simp only [validate, Bool.and_eq_true, decide_eq_true_eq, Bool.not_eq_true', Bool.or_eq_false_iff,
    beq_eq_false_iff_ne, Bool.not_eq_false', decide_eq_false_iff_not]
  constructor
  · rintro ⟨h₁, ⟨⟨⟨⟨⟨h₂, h₃⟩, h₄⟩, h₅⟩, h₆⟩, h₇⟩⟩
    exact ⟨h₁, h₂, h₃, h₄, h₅, h₆, h₇⟩
  · intro h
    exact ⟨h.short, ⟨⟨⟨⟨⟨h.nonEmpty, h.notDot⟩, h.notDotDot⟩, h.utf8⟩, h.noSlash⟩, h.noNul⟩⟩

end Names
