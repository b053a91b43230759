import Mathlib

/-! # Totals over a finite map

The sum of a weight over the values of a finite map, and what storing and erasing a key does to
it. -/
namespace KeyedTotal

variable {α β : Type*} [DecidableEq α]

theorem lookup_empty_ne_some {a b} : (∅ : AList fun _ : α => β).lookup a ≠ some b := by
  rw [AList.lookup_empty]
  nofun

section Total

variable (w : β → ℤ)

def total (m : AList fun _ : α => β) : ℤ := (m.entries.map fun e => w e.2).sum

def weight (m : AList fun _ : α => β) (a : α) : ℤ := ((m.lookup a).map w).getD 0

variable {w} {m : AList fun _ : α => β} {a : α} {b : β}

theorem weight_of_lookup (h : m.lookup a = some b) : weight w m a = w b := by
  rw [weight, h, Option.map_some, Option.getD_some]

theorem weight_of_lookup_none (h : m.lookup a = none) : weight w m a = 0 := by
  rw [weight, h, Option.map_none, Option.getD_none]

theorem sum_kerase (w : β → ℤ) (a : α) (l : List (Sigma fun _ : α => β)) :
    ((l.kerase a).map fun e => w e.2).sum =
      (l.map fun e => w e.2).sum - ((l.dlookup a).map w).getD 0 := by
  induction l with
  | nil => rfl
  | cons e l ih =>
    by_cases he : a = e.1
    · subst he
      rw [List.kerase_cons_eq rfl, List.dlookup_cons_eq, List.map_cons, List.sum_cons,
        Option.map_some, Option.getD_some, add_sub_cancel_left]
    · rw [List.kerase_cons_ne he, List.dlookup_cons_ne _ _ he, List.map_cons, List.sum_cons, ih,
        List.map_cons, List.sum_cons, add_sub_assoc]

theorem total_erase (w : β → ℤ) (m : AList fun _ : α => β) (a : α) :
    total w (m.erase a) = total w m - weight w m a :=
  sum_kerase w a m.entries

theorem total_insert (w : β → ℤ) (m : AList fun _ : α => β) (a : α) (b : β) :
    total w (m.insert a b) = total w m - weight w m a + w b := by
  rw [total, AList.entries_insert, List.map_cons, List.sum_cons, sum_kerase, add_comm]
  rfl

theorem total_nonneg (h : ∀ a b, m.lookup a = some b → 0 ≤ w b) : 0 ≤ total w m := by
  refine List.sum_nonneg fun x hx => ?_
  obtain ⟨e, he, rfl⟩ := List.mem_map.1 hx
  exact h e.1 e.2 (AList.mem_lookup_iff.2 he)

end Total

section Walk

variable {γ : Type*}

/-- Storing the values of a list at the keys that `f` keeps, with their total as it goes. -/
def walk (f : α → β → Option γ) (w : γ → ℤ) :
    List (Sigma fun _ : α => β) → (AList fun _ : α => γ) × ℤ → (AList fun _ : α => γ) × ℤ
  | [], s => s
  | e :: l, s =>
    match f e.1 e.2 with
    | some c => walk f w l (s.1.insert e.1 c, s.2 + w c)
    | none => walk f w l s

variable {f : α → β → Option γ} {w : γ → ℤ}

theorem walk_total (l : List (Sigma fun _ : α => β)) (hl : l.NodupKeys)
    (s : (AList fun _ : α => γ) × ℤ) (hs : s.2 = total w s.1) (hfresh : ∀ a ∈ l.keys, a ∉ s.1) :
    (walk f w l s).2 = total w (walk f w l s).1 := by
  induction l generalizing s with
  | nil => exact hs
  | cons e l ih =>
    obtain ⟨hnot, hl⟩ := List.nodupKeys_cons.1 hl
    rw [List.keys_cons, List.forall_mem_cons] at hfresh
    simp only [walk]
    split
    · rename_i c hc
      refine ih hl _ ?_ fun a ha => ?_
      · rw [total_insert, weight_of_lookup_none (AList.lookup_eq_none.2 hfresh.1), sub_zero, hs]
      · rw [AList.mem_insert, not_or]
        exact ⟨fun he => hnot (he ▸ ha), hfresh.2 a ha⟩
    · exact ih hl _ hs hfresh.2

theorem walk_lookup (l : List (Sigma fun _ : α => β)) (s : (AList fun _ : α => γ) × ℤ) {a c}
    (h : (walk f w l s).1.lookup a = some c) :
    s.1.lookup a = some c ∨ ∃ b, ⟨a, b⟩ ∈ l ∧ f a b = some c := by
  induction l generalizing s with
  | nil => exact .inl h
  | cons e l ih =>
    simp only [walk] at h
    split at h
    · rename_i d hd
      rcases ih _ h with hs | ⟨b, hb, hf⟩
      · by_cases ha : a = e.1
        · subst ha
          rw [AList.lookup_insert] at hs
          cases hs
          exact .inr ⟨e.2, List.mem_cons_self, hd⟩
        · rw [AList.lookup_insert_ne ha] at hs
          exact .inl hs
      · exact .inr ⟨b, List.mem_cons_of_mem _ hb, hf⟩
    · rcases ih _ h with hs | ⟨b, hb, hf⟩
      · exact .inl hs
      · exact .inr ⟨b, List.mem_cons_of_mem _ hb, hf⟩

end Walk

end KeyedTotal
