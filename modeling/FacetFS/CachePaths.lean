import FacetFS.CacheAccounting

/-! # The files of the cache

A cached file has its data in one tree, and its metadata and the temporary file of a flush in a
second tree, under its own name with a suffix. Paths are lists of components. -/
namespace CachePaths

open CacheAccounting

section Places

def suffixed (p : Name) (suffix : String) : Name := p.dropLast ++ [p.getLastD "" ++ suffix]

def dataPath (dir p : Name) : Name := dir ++ "data" :: p
def metaPath (dir p : Name) : Name := dir ++ "meta" :: suffixed p ".json"
def tmpPath (dir p : Name) : Name := dir ++ "meta" :: suffixed p ".json.tmp"

def places (dir p : Name) : List Name := [dataPath dir p, metaPath dir p, tmpPath dir p]

/-- Two different places, neither of which is a directory above the other. -/
def Apart (a b : Name) : Prop := ¬ a <+: b ∧ ¬ b <+: a

instance (a b : Name) : Decidable (Apart a b) := inferInstanceAs (Decidable (_ ∧ _))

/-- Two files of one tree: neither is a directory above the other, and both can be cached. -/
structure Files where
  left : Name
  right : Name
  placed : cachePaths left ≠ none ∧ cachePaths right ≠ none
  apart : Apart left right

/-- No directory above a file has the name of another file with one of the suffixes. -/
def Clear (p q : Name) : Prop :=
  ¬ suffixed p ".json" <+: q.dropLast ∧ ¬ suffixed p ".json.tmp" <+: q.dropLast

end Places

section Suffixes

variable {p q : Name}

theorem append_inj {a b s : String} (h : a ++ s = b ++ s) : a = b := by
  have hl := congrArg String.toList h
  rw [String.toList_append, String.toList_append] at hl
  exact String.toList_inj.1 (List.append_cancel_right hl)

theorem json_ne_tmp (a b : String) : a ++ ".json" ≠ b ++ ".json.tmp" := by
  intro h
  have hl := congrArg (fun s : String => s.toList.getLast?) h
  simp [String.toList_append] at hl

theorem concat_prefix {p q : Name} {a b : String} :
    p ++ [a] <+: q ++ [b] ↔ p = q ∧ a = b ∨ p ++ [a] <+: q := by
  rw [List.prefix_concat_iff]
  simp

theorem dropLast_append_getLastD (h : cachePaths p ≠ none) : p.dropLast ++ [p.getLastD ""] = p := by
  cases p with
  | nil => exact absurd rfl h
  | cons a p => simpa [List.getLastD] using List.dropLast_concat_getLast (List.cons_ne_nil a p)

theorem suffixed_prefix (hp : cachePaths p ≠ none) (hq : cachePaths q ≠ none) (hne : p ≠ q)
    (s : String) : suffixed p s <+: suffixed q s ↔ suffixed p s <+: q.dropLast := by
  rw [suffixed, suffixed, concat_prefix, or_iff_right]
  rintro ⟨hd, hl⟩
  apply hne
  rw [← dropLast_append_getLastD hp, ← dropLast_append_getLastD hq, hd, append_inj hl]

theorem json_prefix_tmp :
    suffixed p ".json" <+: suffixed q ".json.tmp" ↔ suffixed p ".json" <+: q.dropLast := by
  rw [suffixed, suffixed, concat_prefix, or_iff_right]
  exact fun h => json_ne_tmp _ _ h.2

theorem tmp_prefix_json :
    suffixed p ".json.tmp" <+: suffixed q ".json" ↔ suffixed p ".json.tmp" <+: q.dropLast := by
  rw [suffixed, suffixed, concat_prefix, or_iff_right]
  exact fun h => json_ne_tmp _ _ h.2.symm

theorem not_suffixed_prefix_dropLast (s : String) : ¬ suffixed p s <+: p.dropLast := by
  intro h
  have := h.length_le
  simp only [suffixed, List.length_append, List.length_dropLast, List.length_singleton] at this
  omega

end Suffixes

/-- The six files of two cached ones can stand next to each other if and only if no directory above
one of them has the name of the other with a suffix. -/
theorem places_apart_iff (dir : Name) (x : Files) :
    (places dir x.left ++ places dir x.right).Pairwise Apart ↔
      Clear x.left x.right ∧ Clear x.right x.left := by
  cases x with
  | mk p q placed apart =>
    have hne : p ≠ q := fun h => apart.1 (h ▸ List.prefix_rfl)
    have hpq := suffixed_prefix placed.1 placed.2 hne
    have hqp := suffixed_prefix placed.2 placed.1 hne.symm
    simp only [places, dataPath, metaPath, tmpPath, List.cons_append, List.nil_append,
      List.pairwise_cons, List.mem_cons, List.not_mem_nil, or_false, Apart, forall_eq_or_imp,
      List.prefix_append_right_inj, List.cons_prefix_cons, String.reduceEq, false_and,
      not_false_eq_true, and_self, apart.1, and_false, apart.2, forall_eq, json_prefix_tmp,
      not_suffixed_prefix_dropLast, tmp_prefix_json, hpq, true_and, hqp, IsEmpty.forall_iff,
      implies_true, List.Pairwise.nil, and_true, Clear]
    tauto

/-- The metadata of `x` stands where the directory `x.json` of another file has to be. -/
theorem metadata_blocks_directory : ∃ x : Files, x.left = ["x"] ∧ x.right = ["x.json", "y"] ∧
    metaPath [] x.left <+: metaPath [] x.right ∧
      ¬ (places [] x.left ++ places [] x.right).Pairwise Apart :=
  ⟨⟨["x"], ["x.json", "y"], by decide, by decide⟩, rfl, rfl, by decide, by decide⟩

end CachePaths
