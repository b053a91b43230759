import Mathlib

/-! Finite trees of directories and files, addressed by paths from the root. A tree is the map
from its paths to their nodes, together with the paths in the order they are listed; only
directories have children, so a tree that is not one cannot be built. Files may be numbered
objects that live on when they lose their name. -/
namespace FileTree

open Function (update update_of_ne update_self)

variable {ν α β : Type}

/-- A node with its attributes; a file also has contents. -/
inductive Node (α β : Type) where
  | dir (attr : α)
  | file (attr : α) (data : β)
  deriving DecidableEq

def Node.isDir : Node α β → Bool
  | .dir _ => true
  | .file _ _ => false

def Node.attr : Node α β → α
  | .dir a => a
  | .file a _ => a

def dirAt : Option (Node α β) → Bool
  | some n => n.isDir
  | none => false

structure Tree (ν α β : Type) where
  node : List ν → Option (Node α β)
  keys : List (List ν)
  root : dirAt (node []) = true
  mem_keys : ∀ p, p ∈ keys ↔ p ≠ [] ∧ (node p).isSome = true
  parent : ∀ p x, (node (p ++ [x])).isSome = true → dirAt (node p) = true

def Tree.empty (a : α) : Tree ν α β where
  node p := match p with
    | [] => some (.dir a)
    | _ :: _ => none
  keys := []
  root := rfl
  mem_keys p := by cases p <;> simp
  parent p x h := by cases p <;> simp at h

theorem isSome_of_dirAt {o : Option (Node α β)} (h : dirAt o = true) : o.isSome = true := by
  cases o with
  | none => cases h
  | some n => rfl

namespace Tree

section Queries

variable (t : Tree ν α β)

theorem dirAt_of_append {p q} (hq : q ≠ []) (h : (t.node (p ++ q)).isSome = true) :
    dirAt (t.node p) = true := by
  induction q using List.reverseRecOn with
  | nil => exact absurd rfl hq
  | append_singleton q x ih =>
    rw [← List.append_assoc] at h
    have hd := t.parent _ _ h
    by_cases hq' : q = []
    · subst hq'
      simpa using hd
    · exact ih hq' (isSome_of_dirAt hd)

theorem isSome_of_append {p q} (h : (t.node (p ++ q)).isSome = true) :
    (t.node p).isSome = true := by
  by_cases hq : q = []
  · simpa [hq] using h
  · exact isSome_of_dirAt (t.dirAt_of_append hq h)

theorem node_append_of_none {p} (h : t.node p = none) (q : List ν) : t.node (p ++ q) = none := by
  by_contra hne
  have hs := t.isSome_of_append (Option.isSome_iff_ne_none.2 hne)
  rw [h] at hs
  cases hs

theorem node_append_of_file {p a d} (h : t.node p = some (.file a d))
    {q} (hq : q ≠ []) : t.node (p ++ q) = none := by
  by_contra hne
  have hd := t.dirAt_of_append hq (Option.isSome_iff_ne_none.2 hne)
  rw [h] at hd
  cases hd

variable [DecidableEq ν]

def children (p : List ν) : List ν :=
  t.keys.filterMap fun k => if k.dropLast = p then k.getLast? else none

theorem mem_children (p : List ν) (x : ν) :
    x ∈ t.children p ↔ (t.node (p ++ [x])).isSome = true := by
  simp only [children, List.mem_filterMap]
  constructor
  · rintro ⟨k, hk, hx⟩
    split at hx
    · rename_i hp
      have hke : p ++ [x] = k := by
        rw [← hp]
        exact List.dropLast_append_getLast? x hx
      rw [hke]
      exact ((t.mem_keys k).1 hk).2
    · cases hx
  · intro h
    refine ⟨p ++ [x], (t.mem_keys _).2 ⟨by simp, h⟩, by simp⟩

end Queries

section Updates

variable [DecidableEq ν] (t : Tree ν α β)

def insert (p : List ν) (n : Node α β) (hp : p ≠ []) (hd : dirAt (t.node p.dropLast) = true)
    (hn : t.node p = none) : Tree ν α β where
  node := update t.node p (some n)
  keys := t.keys ++ [p]
  root := by
    rw [update_of_ne hp.symm]
    exact t.root
  mem_keys q := by
    by_cases hq : q = p
    · simp [hq, hp]
    · simp [hq, t.mem_keys]
  parent q y h := by
    have hne : q ≠ p := by
      rintro rfl
      rw [update_of_ne (by simp), t.node_append_of_none hn] at h
      cases h
    rw [update_of_ne hne]
    by_cases hqy : q ++ [y] = p
    · subst hqy
      simpa using hd
    · rw [update_of_ne hqy] at h
      exact t.parent q y h

def write (p : List ν) (a : α) (d d' : β) (h : t.node p = some (.file a d)) : Tree ν α β where
  node := update t.node p (some (.file a d'))
  keys := t.keys
  root := by
    have hp : ([] : List ν) ≠ p := by
      rintro rfl
      have hr := t.root
      rw [h] at hr
      cases hr
    rw [update_of_ne hp]
    exact t.root
  mem_keys q := by
    rw [t.mem_keys]
    by_cases hq : q = p
    · simp [hq, h]
    · simp [hq]
  parent q x hs := by
    have hqx : (t.node (q ++ [x])).isSome = true := by
      by_cases hq : q ++ [x] = p
      · rw [hq, h]
        rfl
      · rwa [update_of_ne hq] at hs
    have hd := t.parent q x hqx
    have hne : q ≠ p := by
      rintro rfl
      rw [h] at hd
      cases hd
    rwa [update_of_ne hne]

def removeAll (p : List ν) (hp : p ≠ []) : Tree ν α β where
  node q := if p <+: q then none else t.node q
  keys := t.keys.filter fun q => ¬ p <+: q
  root := by
    rw [if_neg (by simpa using hp)]
    exact t.root
  mem_keys q := by
    rw [List.mem_filter, t.mem_keys]
    by_cases hq : p <+: q <;> simp [hq]
  parent q x h := by
    have hqx : ¬ p <+: q ++ [x] := by
      intro hpre
      rw [if_pos hpre] at h
      cases h
    rw [if_neg hqx] at h
    rw [if_neg fun hpre => hqx (hpre.trans (List.prefix_append _ _))]
    exact t.parent q x h

/-- A node moves with everything below it and replaces what is at its new path. -/
def rename (p q : List ν) (hp : p ≠ []) (hpq : ¬ p <+: q) (hq : q ≠ [])
    (hd : dirAt (t.node q.dropLast) = true) : Tree ν α β where
  node r :=
    if q <+: r then t.node (p ++ r.drop q.length)
    else if p <+: r then none
    else t.node r
  keys := (t.keys.filter fun r => ¬ q <+: r ∧ ¬ p <+: r) ++
    (t.keys.filter fun r => p <+: r).map fun r => q ++ r.drop p.length
  root := by
    rw [if_neg (by simpa using hq), if_neg (by simpa using hp)]
    exact t.root
  mem_keys r := by
    have hmoved : r ∈ (t.keys.filter fun r => p <+: r).map (fun r => q ++ r.drop p.length) ↔
        ∃ s, r = q ++ s ∧ p ++ s ∈ t.keys := by
      simp only [List.mem_map, List.mem_filter, decide_eq_true_eq]
      constructor
      · rintro ⟨k, ⟨hk, s, rfl⟩, rfl⟩
        exact ⟨s, by simp, hk⟩
      · rintro ⟨s, rfl, hk⟩
        exact ⟨p ++ s, ⟨hk, List.prefix_append _ _⟩, by simp⟩
    rw [List.mem_append, hmoved, List.mem_filter, t.mem_keys]
    by_cases hr : q <+: r
    · obtain ⟨s, rfl⟩ := hr
      simp [t.mem_keys, hp, hq]
    have hno : ¬ ∃ s, r = q ++ s ∧ p ++ s ∈ t.keys := by
      rintro ⟨s, rfl, -⟩
      exact hr (List.prefix_append _ _)
    by_cases hr' : p <+: r <;> simp [hr, hr', hno]
  parent r x h := by
    by_cases hrx : q <+: r ++ [x]
    · rw [if_pos hrx] at h
      rcases List.prefix_concat_iff.1 hrx with rfl | hr
      · rw [if_neg (fun hpre => absurd hpre.length_le (by simp)),
          if_neg (fun hpre => hpq (hpre.trans (List.prefix_append _ _)))]
        simpa using hd
      obtain ⟨s, rfl⟩ := hr
      rw [if_pos (List.prefix_append _ _)]
      simp only [List.append_assoc, List.drop_left] at h ⊢
      rw [← List.append_assoc] at h
      exact t.parent _ x h
    rw [if_neg hrx] at h
    have hrp : ¬ p <+: r ++ [x] := by
      intro hpre
      rw [if_pos hpre] at h
      cases h
    rw [if_neg hrp] at h
    rw [if_neg fun hpre => hrx (hpre.trans (List.prefix_append _ _)),
      if_neg fun hpre => hrp (hpre.trans (List.prefix_append _ _))]
    exact t.parent r x h

end Updates

end Tree

section Objects

/-- The object a path names, in a tree whose files are numbered objects. -/
def fileAt (t : Tree ν Unit ℕ) (p : List ν) : Option ℕ :=
  match t.node p with
  | some (.file _ o) => some o
  | _ => none

/-- The objects in a tree are among the first `n`, and no two paths name the same one. -/
structure Named (t : Tree ν Unit ℕ) (n : ℕ) : Prop where
  bound : ∀ p o, fileAt t p = some o → o < n
  single : ∀ p q o, fileAt t p = some o → fileAt t q = some o → p = q

theorem Named.empty : Named (Tree.empty () : Tree ν Unit ℕ) 0 where
  bound p o h := by cases p <;> simp [fileAt, Tree.empty] at h
  single p q o h := by cases p <;> simp [fileAt, Tree.empty] at h

variable [DecidableEq ν] {t : Tree ν Unit ℕ} {n : ℕ}

theorem fileAt_insert (t : Tree ν Unit ℕ) {p x} (hp : p ≠ [])
    (hd : dirAt (t.node p.dropLast) = true) (hn : t.node p = none) (q : List ν) :
    fileAt (t.insert p x hp hd hn) q =
      if q = p then (match x with | .file _ o => some o | .dir _ => none) else fileAt t q := by
  by_cases hq : q = p
  · subst hq
    simp only [fileAt, Tree.insert, update_self, if_true]
    cases x <;> rfl
  · simp only [fileAt, Tree.insert, update_of_ne hq, if_neg hq]

theorem fileAt_removeAll (t : Tree ν Unit ℕ) {p} (hp : p ≠ []) (q : List ν) :
    fileAt (t.removeAll p hp) q = if p <+: q then none else fileAt t q := by
  by_cases hq : p <+: q
  · simp [fileAt, Tree.removeAll, hq]
  · simp [fileAt, Tree.removeAll, hq]

theorem fileAt_rename (t : Tree ν Unit ℕ) {p q} (hp : p ≠ []) (hpq : ¬ p <+: q)
    (hq : q ≠ []) (hd : dirAt (t.node q.dropLast) = true) (r : List ν) :
    fileAt (t.rename p q hp hpq hq hd) r =
      if q <+: r then fileAt t (p ++ r.drop q.length)
      else if p <+: r then none else fileAt t r := by
  by_cases hr : q <+: r
  · simp [fileAt, Tree.rename, hr]
  by_cases hr' : p <+: r
  · simp [fileAt, Tree.rename, hr, hr']
  · simp [fileAt, Tree.rename, hr, hr']

theorem Named.insert_dir (h : Named t n) {p} (hp : p ≠ []) (hd : dirAt (t.node p.dropLast) = true)
    (hn : t.node p = none) : Named (t.insert p (.dir ()) hp hd hn) n := by
  constructor
  · intro q o hq
    rw [fileAt_insert] at hq
    split at hq
    · cases hq
    · exact h.bound q o hq
  intro q r o hq hr
  rw [fileAt_insert] at hq hr
  split at hq
  · cases hq
  split at hr
  · cases hr
  · exact h.single q r o hq hr

theorem Named.insert_file (h : Named t n) {p} (hp : p ≠ []) (hd : dirAt (t.node p.dropLast) = true)
    (hn : t.node p = none) : Named (t.insert p (.file () n) hp hd hn) (n + 1) := by
  constructor
  · intro q o hq
    rw [fileAt_insert] at hq
    split at hq
    · cases hq
      omega
    · have := h.bound q o hq
      omega
  intro q r o hq hr
  rw [fileAt_insert] at hq hr
  split at hq
  · rename_i hqp
    cases hq
    split at hr
    · rename_i hrp
      exact hqp.trans hrp.symm
    · exact absurd (h.bound r _ hr) (Nat.lt_irrefl _)
  split at hr
  · cases hr
    exact absurd (h.bound q _ hq) (Nat.lt_irrefl _)
  · exact h.single q r o hq hr

theorem Named.removeAll (h : Named t n) {p} (hp : p ≠ []) : Named (t.removeAll p hp) n := by
  constructor
  · intro q o hq
    rw [fileAt_removeAll] at hq
    split at hq
    · cases hq
    · exact h.bound q o hq
  intro q r o hq hr
  rw [fileAt_removeAll] at hq hr
  split at hq
  · cases hq
  split at hr
  · cases hr
  · exact h.single q r o hq hr

theorem Named.rename (h : Named t n) {p q} (hp : p ≠ []) (hpq : ¬ p <+: q) (hq : q ≠ [])
    (hd : dirAt (t.node q.dropLast) = true) : Named (t.rename p q hp hpq hq hd) n := by
  constructor
  · intro r o hr
    rw [fileAt_rename] at hr
    split at hr
    · exact h.bound _ o hr
    split at hr
    · cases hr
    · exact h.bound r o hr
  intro r r' o hr hr'
  rw [fileAt_rename] at hr hr'
  split at hr
  · rename_i hqr
    obtain ⟨s, rfl⟩ := hqr
    rw [List.drop_left] at hr
    split at hr'
    · rename_i hqr'
      obtain ⟨s', rfl⟩ := hqr'
      rw [List.drop_left] at hr'
      rw [List.append_cancel_left (h.single _ _ o hr hr')]
    split at hr'
    · cases hr'
    · rename_i hno
      exact absurd (h.single _ _ o hr hr' ▸ List.prefix_append p s) hno
  split at hr
  · cases hr
  rename_i hno
  split at hr'
  · rename_i hqr'
    obtain ⟨s', rfl⟩ := hqr'
    rw [List.drop_left] at hr'
    exact absurd (h.single _ _ o hr' hr ▸ List.prefix_append p s') hno
  split at hr'
  · cases hr'
  · exact h.single r r' o hr hr'

end Objects

end FileTree
