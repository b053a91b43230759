import Mathlib

/-! # Numbers issued along a run

A system with a counter issues, with each event, the numbers that its counter moves over. A run
then issues every number between its first and its last count, once. The numbers may stand for
objects that are handed from place to place. -/
namespace IssuedNumbers

variable {σ ε : Type*} {next : σ → ε → σ} {emit : σ → ε → List ℕ} {count : σ → ℕ}

def issued (next : σ → ε → σ) (emit : σ → ε → List ℕ) : σ → List ε → List ℕ
  | _, [] => []
  | s, e :: es => emit s e ++ issued next emit (next s e) es

/-- One event issues exactly the numbers that the counter moves over. -/
structure Counts (next : σ → ε → σ) (emit : σ → ε → List ℕ) (count : σ → ℕ) (s : σ) (e : ε) :
    Prop where
  le : count s ≤ count (next s e)
  once : (emit s e).Nodup
  mem : ∀ k, k ∈ emit s e ↔ count s < k ∧ k ≤ count (next s e)

theorem count_le_foldl {I : σ → Prop} (hI : ∀ s e, I s → I (next s e))
    (hc : ∀ s e, I s → Counts next emit count s e) {s : σ} (hs : I s) (es : List ε) :
    count s ≤ count (es.foldl next s) := by
  induction es generalizing s with
  | nil => exact Nat.le_refl _
  | cons e es ih => exact Nat.le_trans (hc s e hs).le (ih (hI s e hs))

theorem issued_spec {I : σ → Prop} (hI : ∀ s e, I s → I (next s e))
    (hc : ∀ s e, I s → Counts next emit count s e) {s : σ} (hs : I s) (es : List ε) :
    (issued next emit s es).Nodup ∧
      ∀ k, k ∈ issued next emit s es ↔ count s < k ∧ k ≤ count (es.foldl next s) := by
  induction es generalizing s with
  | nil =>
    refine ⟨List.nodup_nil, fun k => ?_⟩
    simp only [issued, List.not_mem_nil, List.foldl_nil, false_iff]
    omega
  | cons e es ih =>
    have he := hc s e hs
    obtain ⟨hn, hmem⟩ := ih (hI s e hs)
    have hle := count_le_foldl hI hc (hI s e hs) es
    constructor
    · refine List.nodup_append.2 ⟨he.once, hn, fun j hj k hk e' => ?_⟩
      have hj' := (he.mem j).1 hj
      have hk' := (hmem k).1 hk
      omega
    · intro k
      rw [issued, List.mem_append, he.mem, hmem k, List.foldl_cons]
      have := he.le
      omega

/-- Eight bytes tell consecutive numbers apart as long as there are no more than `2 ^ 64`. -/
theorem nodup_map_ofNat {l : List ℕ} (hl : l.Nodup) {a b : ℕ}
    (hmem : ∀ k, k ∈ l ↔ a < k ∧ k ≤ b) : (l.map UInt64.ofNat).Nodup ↔ b ≤ a + 2 ^ 64 := by
  constructor
  · intro h
    by_contra hlt
    have hfirst : a + 1 ∈ l := (hmem _).2 (by omega)
    have hwrapped : a + 1 + 2 ^ 64 ∈ l := (hmem _).2 (by omega)
    have heq : UInt64.ofNat (a + 1) = UInt64.ofNat (a + 1 + 2 ^ 64) := by
      apply UInt64.toNat_inj.mp
      simp only [UInt64.toNat_ofNat']
      omega
    have := List.inj_on_of_nodup_map h hfirst hwrapped heq
    omega
  intro hle
  refine List.Nodup.map_on (fun j hj k hk h => ?_) hl
  have hj' := (hmem j).1 hj
  have hk' := (hmem k).1 hk
  have := congrArg UInt64.toNat h
  simp only [UInt64.toNat_ofNat'] at this
  omega

section Places

variable {P : Type*} {holds holds' : P → ℕ → Prop} {n : ℕ}

/-- Numbers issued by a counter stand for objects, and no object is in two places. -/
structure Placed (holds : P → ℕ → Prop) (n : ℕ) : Prop where
  issued : ∀ p k, holds p k → k < n
  unique : ∀ p q k, holds p k → holds q k → p = q

theorem Placed.move (h : Placed holds n) (fresh : P) (move : P → P)
    (hm : ∀ p k, holds' p k → (k = n ∧ p = fresh) ∨ ∃ q, holds q k ∧ p = move q) :
    Placed holds' (n + 1) := by
  constructor
  · intro p k hp
    rcases hm p k hp with ⟨rfl, -⟩ | ⟨q, hq, -⟩
    · exact Nat.lt_succ_self k
    · exact Nat.lt_succ_of_lt (h.issued q k hq)
  intro p q k hp hq
  rcases hm p k hp with ⟨hk, rfl⟩ | ⟨p', hp', rfl⟩
  · rcases hm q k hq with ⟨-, rfl⟩ | ⟨q', hq', -⟩
    · rfl
    · exact absurd (h.issued q' k hq') (by omega)
  rcases hm q k hq with ⟨hk, -⟩ | ⟨q', hq', rfl⟩
  · exact absurd (h.issued p' k hp') (by omega)
  · rw [h.unique p' q' k hp' hq']

end Places

end IssuedNumbers
