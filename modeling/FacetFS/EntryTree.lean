import Mathlib

/-! Directory graphs. A node has children under names; what can be reached from the root is a
tree if each node there has one parent entry and the root has none. Entries are set, removed and
moved one at a time, and a move can cut its node off: it does exactly if the new parent is the
node or below it. -/
namespace EntryTree

open Relation

variable {ν κ : Type*}

/-- The child of a node under a name. -/
abbrev Entries (ν κ : Type*) := ν → κ → Option ν

def Child (e : Entries ν κ) (a b : ν) : Prop := ∃ k, e a k = some b

/-- Reached by going down from a node, which itself counts. -/
def Below (e : Entries ν κ) : ν → ν → Prop := ReflTransGen (Child e)

structure IsTree (e : Entries ν κ) (r : ν) : Prop where
  single : ∀ a k b l x, Below e r a → Below e r b → e a k = some x → e b l = some x →
    a = b ∧ k = l
  root : ∀ a k, Below e r a → e a k ≠ some r

section Trees

variable {e e' : Entries ν κ} {r a b x : ν} {k : κ}

theorem Below.entry (h : Below e r a) (hx : e a k = some x) : Below e r x := h.tail ⟨k, hx⟩

theorem IsTree.acyclic (h : IsTree e r) (hx : Below e r x) : ¬ TransGen (Child e) x x := by
  -- going back from a node on a cycle leads both around the cycle and to the root
  have hlast : ∀ y, TransGen (Child e) y y → ∃ c l, Below e y c ∧ e c l = some y := by
    intro y hy
    obtain ⟨c, hc, l, hl⟩ := TransGen.tail'_iff.1 hy
    exact ⟨c, l, hc, hl⟩
  induction hx with
  | refl =>
    intro hr
    obtain ⟨c, l, hc, hl⟩ := hlast _ hr
    exact h.root c l hc hl
  | tail hb hbc ih =>
    rename_i b c
    intro hc
    obtain ⟨d, l, hd, hl⟩ := hlast _ hc
    obtain ⟨k, hk⟩ := hbc
    have hrd : Below e r d := (Below.entry hb hk).trans hd
    obtain ⟨rfl, -⟩ := h.single d l b k c hrd hb hl hk
    exact ih (TransGen.head' ⟨k, hk⟩ hd)

theorem IsTree.existsUnique_parent (h : IsTree e r) (hx : Below e r x) (hne : x ≠ r) :
    ∃! p : ν × κ, Below e r p.1 ∧ e p.1 p.2 = some x := by
  rcases ReflTransGen.cases_tail hx with rfl | ⟨a, ha, k, hk⟩
  · exact absurd rfl hne
  refine ⟨(a, k), ⟨ha, hk⟩, fun p hp => ?_⟩
  obtain ⟨hpa, hpk⟩ := h.single p.1 p.2 a k x hp.1 ha hp.2 hk
  exact Prod.ext hpa hpk

theorem Below.mono (hs : ∀ a k x, e' a k = some x → e a k = some x) (h : Below e' a b) :
    Below e a b := by
  induction h with
  | refl => exact .refl
  | tail _ hstep ih =>
    obtain ⟨k, hk⟩ := hstep
    exact ih.entry (hs _ _ _ hk)

theorem IsTree.mono (h : IsTree e r) (hs : ∀ a k x, e' a k = some x → e a k = some x) :
    IsTree e' r where
  single a k b l x ha hb hk hl := h.single a k b l x (ha.mono hs) (hb.mono hs) (hs _ _ _ hk)
    (hs _ _ _ hl)
  root a k ha hk := h.root a k (ha.mono hs) (hs _ _ _ hk)

end Trees

section Updates

variable [DecidableEq ν] [DecidableEq κ]

def put (e : Entries ν κ) (a : ν) (k : κ) (v : Option ν) : Entries ν κ :=
  fun a' k' => if a' = a ∧ k' = k then v else e a' k'

variable {e : Entries ν κ} {r a b n x : ν} {k l : κ}

@[simp] theorem put_self (e : Entries ν κ) (a : ν) (k : κ) (v : Option ν) :
    put e a k v a k = v := if_pos ⟨rfl, rfl⟩

theorem put_of_ne {a' k'} (h : ¬ (a' = a ∧ k' = k)) (v : Option ν) :
    put e a k v a' k' = e a' k' := if_neg h

theorem put_eq_some {v a' k'} (h : put e a k v a' k' = some x) :
    (a' = a ∧ k' = k ∧ v = some x) ∨ (¬ (a' = a ∧ k' = k) ∧ e a' k' = some x) := by
  by_cases hk : a' = a ∧ k' = k
  · obtain ⟨rfl, rfl⟩ := hk
    rw [put_self] at h
    exact .inl ⟨rfl, rfl, h⟩
  · rw [put_of_ne hk] at h
    exact .inr ⟨hk, h⟩

theorem IsTree.remove (h : IsTree e r) (a : ν) (k : κ) : IsTree (put e a k none) r := by
  refine h.mono fun a' k' x hx => ?_
  rcases put_eq_some hx with ⟨-, -, hv⟩ | ⟨-, hold⟩
  · cases hv
  · exact hold

/-- A node without children that is not reached yet. -/
structure Fresh (e : Entries ν κ) (r n : ν) : Prop where
  leaf : ∀ k, e n k = none
  unreached : ¬ Below e r n

theorem Fresh.below_put (hn : Fresh e r n) {y} (hy : Below (put e a k (some n)) r y) :
    y = n ∨ Below e r y := by
  induction hy with
  | refl => exact .inr .refl
  | tail _ hstep ih =>
    obtain ⟨l, hl⟩ := hstep
    rcases put_eq_some hl with ⟨-, -, hv⟩ | ⟨-, hold⟩
    · exact .inl (Option.some.inj hv).symm
    rcases ih with rfl | hb
    · rw [hn.leaf] at hold
      cases hold
    · exact .inr (hb.entry hold)

theorem IsTree.insert (h : IsTree e r) (hn : Fresh e r n) (a : ν) (k : κ) :
    IsTree (put e a k (some n)) r := by
  have hold : ∀ b l x, Below (put e a k (some n)) r b → e b l = some x → Below e r b := by
    intro b l x hb hl
    rcases hn.below_put hb with rfl | hb
    · rw [hn.leaf] at hl
      cases hl
    · exact hb
  have hnew : ∀ b l, Below (put e a k (some n)) r b → e b l ≠ some n := by
    intro b l hb hl
    exact hn.unreached ((hold b l n hb hl).entry hl)
  constructor
  · intro b l c m x hb hc hl hm
    rcases put_eq_some hl with ⟨rfl, rfl, hv⟩ | ⟨-, hl'⟩
    · cases hv
      rcases put_eq_some hm with ⟨rfl, rfl, -⟩ | ⟨-, hm'⟩
      · exact ⟨rfl, rfl⟩
      · exact absurd hm' (hnew c m hc)
    rcases put_eq_some hm with ⟨rfl, rfl, hv⟩ | ⟨-, hm'⟩
    · cases hv
      exact absurd hl' (hnew b l hb)
    · exact h.single b l c m x (hold b l x hb hl') (hold c m x hc hm') hl' hm'
  · intro b l hb hl
    rcases put_eq_some hl with ⟨-, -, hv⟩ | ⟨-, hl⟩
    · cases hv
      exact hn.unreached .refl
    · exact h.root b l (hold b l r hb hl) hl

/-- The graph after the node under `k` in `a` was moved to `l` in `b`. -/
def move (e : Entries ν κ) (a : ν) (k : κ) (b : ν) (l : κ) (x : ν) : Entries ν κ :=
  put (put e a k none) b l (some x)

theorem move_eq_some {a' k' y} (h : move e a k b l x a' k' = some y) : (a' = b ∧ k' = l ∧ y = x) ∨
      (¬ (a' = b ∧ k' = l) ∧ ¬ (a' = a ∧ k' = k) ∧ e a' k' = some y) := by
  rcases put_eq_some h with ⟨rfl, rfl, hv⟩ | ⟨hne, h⟩
  · exact .inl ⟨rfl, rfl, (Option.some.inj hv).symm⟩
  rcases put_eq_some h with ⟨-, -, hv⟩ | ⟨hne', hold⟩
  · cases hv
  · exact .inr ⟨hne, hne', hold⟩

theorem move_of_ne {a' k'} (hb : ¬ (a' = b ∧ k' = l)) (ha : ¬ (a' = a ∧ k' = k)) :
    move e a k b l x a' k' = e a' k' :=
  (put_of_ne hb _).trans (put_of_ne ha _)

theorem below_of_move (ha : Below e r a) (hx : e a k = some x) {y}
    (hy : Below (move e a k b l x) r y) : Below e r y := by
  induction hy with
  | refl => exact .refl
  | tail _ hstep ih =>
    obtain ⟨m, hm⟩ := hstep
    rcases move_eq_some hm with ⟨-, -, rfl⟩ | ⟨-, -, hold⟩
    · exact ha.entry hx
    · exact ih.entry hold

theorem IsTree.move (h : IsTree e r) (ha : Below e r a) (hx : e a k = some x) (b : ν) (l : κ) :
    IsTree (move e a k b l x) r := by
  constructor
  · intro c m d o y hc hd hm ho
    have hc' := below_of_move ha hx hc
    have hd' := below_of_move ha hx hd
    rcases move_eq_some hm with ⟨rfl, rfl, rfl⟩ | ⟨-, hne, hm'⟩
    · rcases move_eq_some ho with ⟨rfl, rfl, -⟩ | ⟨-, hne, ho'⟩
      · exact ⟨rfl, rfl⟩
      · exact absurd (h.single d o a k y hd' ha ho' hx) hne
    rcases move_eq_some ho with ⟨rfl, rfl, rfl⟩ | ⟨-, -, ho'⟩
    · exact absurd (h.single c m a k y hc' ha hm' hx) hne
    · exact h.single c m d o y hc' hd' hm' ho'
  · intro c m hc hm
    rcases move_eq_some hm with ⟨-, -, rfl⟩ | ⟨-, -, hm⟩
    · exact h.root a k ha hx
    · exact h.root c m (below_of_move ha hx hc) hm

theorem IsTree.cut_off (h : IsTree e r) (ha : Below e r a) (hx : e a k = some x)
    (hb : Below e x b) {y} (hy : Below (EntryTree.move e a k b l x) r y) : ¬ Below e x y := by
  have hparent : ∀ c m d, Below e r c → e c m = some d → ¬ (c = a ∧ m = k) → Below e x d →
      Below e x c := by
    intro c m d hc hm hne hd
    rcases ReflTransGen.cases_tail hd with rfl | ⟨p, hp, n, hn⟩
    · exact absurd (h.single c m a k d hc ha hm hx) hne
    have hrp : Below e r p := (ha.entry hx).trans hp
    obtain ⟨rfl, -⟩ := h.single c m p n d hc hrp hm hn
    exact hp
  induction hy with
  | refl =>
    intro hr
    rcases ReflTransGen.cases_tail hr with rfl | ⟨p, hp, n, hn⟩
    · exact h.root a k ha hx
    · exact h.root p n ((ha.entry hx).trans hp) hn
  | tail hc hstep ih =>
    rename_i c d
    obtain ⟨m, hm⟩ := hstep
    rcases move_eq_some hm with ⟨rfl, -, -⟩ | ⟨-, hne, hold⟩
    · exact absurd hb ih
    · exact fun hd => ih (hparent c m d (below_of_move ha hx hc) hold hne hd)

/-- A move over a node without children cuts off nothing but that node exactly if the new parent
is not the moved node or below it. -/
theorem IsTree.move_keeps_iff (h : IsTree e r) (ha : Below e r a) (hb : Below e r b)
    (hx : e a k = some x) (hleaf : ∀ z, e b l = some z → z = x ∨ ∀ m, e z m = none) :
    (∀ y, Below e r y → Below (EntryTree.move e a k b l x) r y ∨ e b l = some y) ↔
      ¬ Below e x b := by
  have hrx : Below e r x := ha.entry hx
  constructor
  · intro hkeep hxb
    rcases hkeep x hrx with hy | hbl
    · exact h.cut_off ha hx hxb hy .refl
    · exact h.acyclic hrx (TransGen.tail' hxb ⟨l, hbl⟩)
  intro hnot
  have houter : ∀ y, Below e r y → ¬ Below e x y →
      Below (EntryTree.move e a k b l x) r y ∨ e b l = some y := by
    intro y hy
    induction hy with
    | refl => exact fun _ => .inl .refl
    | tail hc hstep ih =>
      rename_i c d
      obtain ⟨m, hm⟩ := hstep
      intro hd
      have hc' : ¬ Below e x c := fun hxc => hd (hxc.entry hm)
      rcases ih hc' with hmoved | hreplaced
      · by_cases hbl : c = b ∧ m = l
        · obtain ⟨rfl, rfl⟩ := hbl
          exact .inr hm
        by_cases hak : c = a ∧ m = k
        · obtain ⟨rfl, rfl⟩ := hak
          rw [hx] at hm
          cases hm
          exact absurd .refl hd
        · exact .inl (hmoved.entry ((move_of_ne hbl hak).trans hm))
      · -- the replaced node has no children
        rcases hleaf c hreplaced with rfl | hnone
        · exact absurd .refl hc'
        · rw [hnone] at hm
          cases hm
  have hb' : Below (EntryTree.move e a k b l x) r b := by
    rcases houter b hb hnot with hmoved | hself
    · exact hmoved
    · exact absurd (TransGen.single ⟨l, hself⟩) (h.acyclic hb)
  have hx' : Below (EntryTree.move e a k b l x) r x := hb'.entry (put_self _ b l (some x))
  have hinner : ∀ y, Below e x y → Below (EntryTree.move e a k b l x) x y := by
    intro y hy
    induction hy with
    | refl => exact .refl
    | tail hc hstep ih =>
      rename_i c d
      obtain ⟨m, hm⟩ := hstep
      have hbl : ¬ (c = b ∧ m = l) := by
        rintro ⟨rfl, -⟩
        exact hnot hc
      have hak : ¬ (c = a ∧ m = k) := by
        rintro ⟨rfl, -⟩
        exact h.acyclic hrx (TransGen.tail' hc ⟨k, hx⟩)
      exact ih.entry ((move_of_ne hbl hak).trans hm)
  intro y hy
  by_cases hxy : Below e x y
  · exact .inl (hx'.trans (hinner y hxy))
  · exact houter y hy hxy

end Updates

end EntryTree
