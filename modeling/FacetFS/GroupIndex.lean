import Mathlib

/-!
# Grouped secondary indexes

A table of live entries is often accompanied by an index that lists, for every group key, the
entries of that group.  The index keeps no empty list.  `Indexes` says that such an index agrees
with its table, and the lemmas below carry the agreement through insertion, removal and a
re-keying pass over all groups.
-/

namespace GroupIndex

variable {K V : Type} [DecidableEq K] [DecidableEq V]

/-- The index itself: a finite map from group keys to lists of entries. -/
abbrev Index (K V : Type) := AList (fun _ : K => List V)

def members (ix : Index K V) (k : K) : List V :=
  (ix.lookup k).getD []

def add (ix : Index K V) (k : K) (v : V) : Index K V :=
  ix.insert k (members ix k ++ [v])

def put (ix : Index K V) (k : K) (v : V) : Index K V :=
  ix.insert k ((members ix k).insert v)

def drop (ix : Index K V) (k : K) (v : V) : Index K V :=
  let rest := (members ix k).erase v
  if rest = [] then ix.erase k else ix.insert k rest

/-- Moves the group `k` behind the entries that its target `f k` already has. -/
def moveGroup (f : K → Option K) (ix : Index K V) (k : K) : Index K V :=
  match f k with
  | none => ix
  | some t => (ix.erase k).insert t (members (ix.erase k) t ++ members ix k)

def regroup (f : K → Option K) (ix : Index K V) : Index K V :=
  ix.keys.foldl (moveGroup f) ix

omit [DecidableEq V] in
@[simp]
theorem members_empty (k : K) : members (∅ : Index K V) k = [] := rfl

omit [DecidableEq V] in
theorem members_insert (ix : Index K V) (k q : K) (l : List V) :
    members (ix.insert k l) q = if q = k then l else members ix q := by
  by_cases h : q = k
  · subst h
    simp [members]
  · simp [members, AList.lookup_insert_ne h, h]

omit [DecidableEq V] in
theorem members_erase (ix : Index K V) (k q : K) :
    members (ix.erase k) q = if q = k then [] else members ix q := by
  by_cases h : q = k
  · subst h
    simp [members]
  · simp [members, AList.lookup_erase_ne h, h]

variable (ix : Index K V) (k q : K) (v : V)

omit [DecidableEq V] in
theorem members_add :
    members (add ix k v) q = if q = k then members ix k ++ [v] else members ix q :=
  members_insert ix k q _

theorem members_put :
    members (put ix k v) q = if q = k then (members ix k).insert v else members ix q :=
  members_insert ix k q _

theorem members_foldl_put (vs : List V) (ix : Index K V) :
    members (vs.foldl (fun ix v => put ix k v) ix) q =
      if q = k then vs.foldl (fun l v => l.insert v) (members ix k) else members ix q := by
  induction vs generalizing ix with
  | nil =>
    by_cases h : q = k
    · simp [h]
    · simp [h]
  | cons v vs ih =>
    rw [List.foldl_cons, ih, members_put, members_put, if_pos rfl]
    by_cases h : q = k
    · simp [h]
    · simp [h]

theorem members_drop :
    members (drop ix k v) q = if q = k then (members ix k).erase v else members ix q := by
  by_cases hr : (members ix k).erase v = []
  · simp [drop, hr, members_erase]
  · simp [drop, hr, members_insert]

omit [DecidableEq V] in
theorem mem_keys_of_mem_members {ix : Index K V} {k : K} {v : V} (h : v ∈ members ix k) :
    k ∈ ix.keys := by
  by_contra hk
  rw [← AList.mem_keys, ← AList.lookup_eq_none] at hk
  simp [members, hk] at h

omit [DecidableEq V] in
theorem members_moveGroup {f k t} (ix : Index K V) (hf : f k = some t) (htk : t ≠ k) (q : K) :
    members (moveGroup f ix k) q =
      if q = t then members ix t ++ members ix k else if q = k then [] else members ix q := by
  simp only [moveGroup, hf, members_insert, members_erase, htk, if_false]

omit [DecidableEq V] in
theorem members_foldl_moveGroup {f} (hf : ∀ k t, f k = some t → f t = none) :
    ∀ (ks : List K) (ix : Index K V) (q : K), ks.Nodup →
      members (ks.foldl (moveGroup f) ix) q =
        (if q ∈ ks ∧ (f q).isSome then [] else members ix q) ++
          ks.flatMap fun p => if f p = some q then members ix p else []
  | [], ix, q, _ => by simp
  | k :: ks, ix, q, hn => by
    obtain ⟨hk, hn⟩ := List.nodup_cons.1 hn
    rw [List.foldl_cons, members_foldl_moveGroup hf ks _ q hn]
    cases hfk : f k with
    | none =>
      have hq : (q ∈ k :: ks ∧ (f q).isSome) ↔ (q ∈ ks ∧ (f q).isSome) := by
        constructor
        · rintro ⟨hm, hs⟩
          rcases List.mem_cons.1 hm with rfl | hm
          · simp [hfk] at hs
          · exact ⟨hm, hs⟩
        · rintro ⟨hm, hs⟩
          exact ⟨List.mem_cons_of_mem _ hm, hs⟩
      simp only [hq]
      simp [moveGroup, hfk]
    | some t =>
      have htk : t ≠ k := by
        intro e
        subst e
        simp [hf _ _ hfk] at hfk
      have hrest : (ks.flatMap fun p =>
          if f p = some q then members (moveGroup f ix k) p else []) =
          ks.flatMap fun p => if f p = some q then members ix p else [] := by
        apply List.flatMap_congr
        intro p hp
        by_cases hpq : f p = some q
        · have hpt : p ≠ t := by
            intro e
            rw [e, hf _ _ hfk] at hpq
            cases hpq
          have hpk : p ≠ k := fun e => hk (e ▸ hp)
          rw [members_moveGroup ix hfk htk, if_neg hpt, if_neg hpk]
        · simp [hpq]
      rw [hrest, members_moveGroup ix hfk htk, List.flatMap_cons, hfk]
      by_cases hqt : q = t
      · subst hqt
        simp [hf _ _ hfk]
      by_cases hqk : q = k
      · subst hqk
        simp [hk, hqt, Ne.symm hqt, hfk]
      · simp [hqt, hqk, Ne.symm hqt]

omit [DecidableEq V] in
/-- After a re-keying pass whose targets stay put, a target lists its own entries and then
those of the groups moved onto it. -/
theorem members_regroup {f} (hf : ∀ k t, f k = some t → f t = none) (ix : Index K V) (q : K) :
    members (regroup f ix) q = (if (f q).isSome then [] else members ix q) ++
      ix.keys.flatMap fun p => if f p = some q then members ix p else [] := by
  rw [regroup, members_foldl_moveGroup hf ix.keys ix q ix.keys_nodup]
  by_cases hq : q ∈ ix.keys
  · simp [hq]
  have hnil : members ix q = [] := by
    rw [members, AList.lookup_eq_none.2 (fun h => hq (AList.mem_keys.1 h))]
    rfl
  simp [hq, hnil]

omit [DecidableEq V] in
theorem members_regroup_target {f} (hf : ∀ k t, f k = some t → f t = none)
    (ix : Index K V) {p q} (hpq : f p = some q) (hinj : ∀ k, f k = some q → k = p) :
    members (regroup f ix) q = members ix q ++ members ix p := by
  rw [members_regroup hf, hf p q hpq]
  congr 1
  have hsel : ∀ ks : List K, ks.Nodup →
      (ks.flatMap fun k => if f k = some q then members ix k else []) =
        if p ∈ ks then members ix p else [] := by
    intro ks
    induction ks with
    | nil => simp
    | cons k ks ih =>
      intro hn
      obtain ⟨hk, hn⟩ := List.nodup_cons.1 hn
      rw [List.flatMap_cons, ih hn]
      by_cases hkp : k = p
      · subst hkp
        simp [hpq, hk]
      · have hne : f k ≠ some q := fun e => hkp (hinj k e)
        simp [hne, Ne.symm hkp]
  rw [hsel _ ix.keys_nodup]
  by_cases hp : p ∈ ix.keys
  · simp [hp]
  simp only [hp, if_false]
  rw [members, AList.lookup_eq_none.2 (fun h => hp (AList.mem_keys.1 h))]
  rfl

omit [DecidableEq V] in
theorem members_regroup_other {f} (hf : ∀ k t, f k = some t → f t = none)
    (ix : Index K V) {q} (hq : ∀ k, f k ≠ some q) :
    members (regroup f ix) q = if (f q).isSome then [] else members ix q := by
  rw [members_regroup hf]
  simp [hq]

section Updates

variable {α β : Type} [DecidableEq α] {g : α → β} {a : α} {b : β}

/-- A field that the new value shares with the old one is the same everywhere. -/
theorem update_field {γ : Type} {f : β → γ} (h : f b = f (g a)) (x : α) :
    f (Function.update g a b x) = f (g x) := by
  rw [Function.apply_update fun _ => f, h]
  exact congrFun (Function.update_eq_self a _) x

/-- What holds of every entry still does when one is new or replaced, if the new value has it. -/
theorem forall_update {ks ks' : List α} (P : α → β → Prop) (hks : ∀ x ∈ ks', x ≠ a → x ∈ ks)
    (hnew : a ∈ ks' → P a b) (hold : ∀ x ∈ ks, P x (g x)) :
    ∀ x ∈ ks', P x (Function.update g a b x) := by
  intro x hx
  by_cases hxa : x = a
  · subst hxa
    rw [Function.update_self]
    exact hnew hx
  · rw [Function.update_of_ne hxa]
    exact hold x (hks x hx hxa)

theorem forall_install {ks : List α} (P : α → β → Prop) (hnew : P a b)
    (hold : ∀ x ∈ ks, P x (g x)) : ∀ x ∈ a :: ks, P x (Function.update g a b x) :=
  forall_update P (fun _ hx => (List.mem_cons.1 hx).resolve_left) (fun _ => hnew) hold

theorem forall_some_update {m : α → Option β} {y : Option β} {P : α → β → Prop}
    (hold : ∀ x, x ≠ a → ∀ b, m x = some b → P x b) (hnew : ∀ b, y = some b → P a b) :
    ∀ x b, Function.update m a y x = some b → P x b := by
  intro x b hx
  by_cases hxa : x = a
  · subst hxa
    rw [Function.update_self] at hx
    exact hnew b hx
  · rw [Function.update_of_ne hxa] at hx
    exact hold x hxa b hx

/-- What holds between any two entries still does when one is new or replaced, if the new value
and the others agree. -/
theorem forall_pairs_update {ks ks' : List α} (P : α → β → α → β → Prop)
    (hks : ∀ x ∈ ks', x ≠ a → x ∈ ks) (hself : a ∈ ks' → P a b a b)
    (hnew : a ∈ ks' → ∀ x ∈ ks, x ≠ a → P a b x (g x) ∧ P x (g x) a b)
    (hold : ∀ x ∈ ks, ∀ y ∈ ks, P x (g x) y (g y)) :
    ∀ x ∈ ks', ∀ y ∈ ks', P x (Function.update g a b x) y (Function.update g a b y) := by
  intro x hx y hy
  by_cases hxa : x = a
  · subst hxa
    rw [Function.update_self]
    by_cases hyx : y = x
    · subst hyx
      rw [Function.update_self]
      exact hself hx
    · rw [Function.update_of_ne hyx]
      exact (hnew hx y (hks y hy hyx) hyx).1
  rw [Function.update_of_ne hxa]
  by_cases hya : y = a
  · subst hya
    rw [Function.update_self]
    exact (hnew hy x (hks x hx hxa) hxa).2
  · rw [Function.update_of_ne hya]
    exact hold x (hks x hx hxa) y (hks y hy hya)

end Updates

/-- The index lists exactly the live entries, each once and under its own group, and keeps no
empty list. -/
structure Indexes (ix : Index K V) (live : List V) (group : V → K) : Prop where
  mem : ∀ k v, v ∈ members ix k ↔ v ∈ live ∧ group v = k
  nodup : ∀ k, (members ix k).Nodup
  noEmpty : ∀ k, ix.lookup k ≠ some []

namespace Indexes

variable {ix : Index K V} {live : List V} {group group' : V → K}

omit [DecidableEq V] in
theorem empty (group : V → K) : Indexes (∅ : Index K V) [] group where
  mem k v := by simp
  nodup k := by simp
  noEmpty k := by simp

omit [DecidableEq V] in
theorem congr (h : Indexes ix live group) (hg : ∀ v ∈ live, group' v = group v) :
    Indexes ix live group' where
  mem k v := by
    rw [h.mem]
    constructor
    · intro hv
      exact ⟨hv.1, (hg v hv.1).trans hv.2⟩
    · intro hv
      exact ⟨hv.1, (hg v hv.1).symm.trans hv.2⟩
  nodup := h.nodup
  noEmpty := h.noEmpty

omit [DecidableEq V] in
theorem add {v k} (h : Indexes ix live group) (hv : v ∉ live) (hg : ∀ u ∈ live, group' u = group u)
    (hk : group' v = k) : Indexes (GroupIndex.add ix k v) (v :: live) group' := by
  subst hk
  have h' := h.congr hg
  refine ⟨fun k u => ?_, fun k => ?_, fun k hk => ?_⟩
  · rw [members_add]
    by_cases hk : k = group' v
    · subst hk
      by_cases hu : u = v <;> simp [hu, h'.mem]
    have huv : u = v → group' u ≠ k := by
      intro e
      subst e
      exact Ne.symm hk
    simp only [hk, if_false, h'.mem, List.mem_cons]
    tauto
  · rw [members_add]
    by_cases hk : k = group' v
    · have hnv : v ∉ members ix (group' v) := fun hm => hv ((h'.mem _ _).1 hm).1
      simp [hk, List.nodup_append, h.nodup]
      intro a ha e
      exact hnv (e ▸ ha)
    · simpa [hk] using h.nodup k
  · by_cases he : k = group' v
    · subst he
      simp [GroupIndex.add] at hk
    · rw [GroupIndex.add, AList.lookup_insert_ne he] at hk
      exact h.noEmpty k hk

/-- A new entry whose record is put into a table of records. -/
theorem install {σ : Type} {f : V → σ} {path : σ → K} {v s}
    (h : Indexes ix live fun u => path (f u)) (hv : v ∉ live) :
    Indexes (GroupIndex.add ix (path s) v) (v :: live) fun u => path (Function.update f v s u) := by
  apply h.add hv
  · intro u hu
    have hne : u ≠ v := fun e => hv (e ▸ hu)
    simp [hne]
  · simp

theorem drop {v k} (h : Indexes ix live group) (hk : group v = k) :
    Indexes (GroupIndex.drop ix k v) (live.filter (· ≠ v)) group := by
  subst hk
  refine ⟨fun k u => ?_, fun k => ?_, fun k hk => ?_⟩
  · rw [members_drop]
    by_cases hk : k = group v
    · subst hk
      simp [(h.nodup _).mem_erase_iff, h.mem]
      tauto
    have huv : u = v → group u ≠ k := by
      intro e
      subst e
      exact Ne.symm hk
    simp [hk, h.mem]
    tauto
  · rw [members_drop]
    by_cases hk : k = group v
    · simpa [hk] using (h.nodup _).erase v
    · simpa [hk] using h.nodup k
  unfold GroupIndex.drop at hk
  by_cases hr : (members ix (group v)).erase v = []
  · simp only [hr, if_true] at hk
    by_cases he : k = group v
    · subst he
      simp at hk
    · rw [AList.lookup_erase_ne he] at hk
      exact h.noEmpty k hk
  simp only [hr, if_false] at hk
  by_cases he : k = group v
  · subst he
    simp [hr] at hk
  · rw [AList.lookup_insert_ne he] at hk
    exact h.noEmpty k hk

omit [DecidableEq V] in
theorem members_ne_nil (h : Indexes ix live group) {k} (hk : k ∈ ix.keys) : members ix k ≠ [] := by
  intro he
  obtain ⟨l, hl⟩ := Option.isSome_iff_exists.1 (AList.lookup_isSome.2 (AList.mem_keys.2 hk))
  rw [members, hl] at he
  exact h.noEmpty k (hl.trans (congrArg some he))

omit [DecidableEq V] in
theorem moveGroup {f k} (h : Indexes ix live group) (hk : k ∈ ix.keys)
    (hf : ∀ t, f k = some t → t ≠ k) :
    Indexes (GroupIndex.moveGroup f ix k) live
      (fun v => if group v = k then (f k).getD k else group v) := by
  cases hfk : f k with
  | none =>
    simp only [GroupIndex.moveGroup, hfk, Option.getD_none]
    apply h.congr
    intro v hv
    split <;> simp_all
  | some t =>
    have htk : t ≠ k := hf t hfk
    simp only [GroupIndex.moveGroup, hfk, Option.getD_some]
    refine ⟨fun q v => ?_, fun q => ?_, fun q hq => ?_⟩
    · by_cases hq : q = t
      · subst hq
        by_cases hg : group v = k <;> simp [members_insert, members_erase, h.mem, htk, hg, htk.symm]
      by_cases hg : group v = k
      · by_cases hqk : q = k
        · simp [members_insert, members_erase, hg, hqk, htk, htk.symm]
        · simp [members_insert, members_erase, h.mem, hq, hg, hqk, Ne.symm hq, Ne.symm hqk]
      · by_cases hqk : q = k
        · subst hqk
          simp [members_insert, members_erase, hq, hg]
        · simp [members_insert, members_erase, h.mem, hq, hg, hqk]
    · by_cases hq : q = t
      · subst hq
        simp only [members_insert, members_erase, if_true, htk, if_false]
        rw [List.nodup_append]
        refine ⟨h.nodup _, h.nodup _, fun a ha b hb e => ?_⟩
        subst e
        exact htk (((h.mem _ _).1 ha).2.symm.trans ((h.mem _ _).1 hb).2)
      · by_cases hqk : q = k <;> simp [members_insert, members_erase, hq, hqk, h.nodup]
        simp [htk.symm]
    by_cases he : q = t
    · subst he
      simp [h.members_ne_nil hk] at hq
    rw [AList.lookup_insert_ne he] at hq
    by_cases hqk : q = k
    · subst hqk
      simp at hq
    · rw [AList.lookup_erase_ne hqk] at hq
      exact h.noEmpty q hq

omit [DecidableEq V] in
theorem foldl_moveGroup {f} (hf : ∀ k t, f k = some t → f t = none) :
    ∀ (ks : List K) {ix : Index K V} {group : V → K}, ks.Nodup → (∀ k ∈ ks, k ∈ ix.keys) →
      Indexes ix live group →
      Indexes (ks.foldl (GroupIndex.moveGroup f) ix) live
        (fun v => if group v ∈ ks then (f (group v)).getD (group v) else group v)
  | [], ix, group, _, _, h => by simpa using h
  | k :: ks, ix, group, hn, hm, h => by
    obtain ⟨hk, hn⟩ := List.nodup_cons.1 hn
    have hne : ∀ t, f k = some t → t ≠ k := by
      intro t ht e
      subst e
      simp [hf _ _ ht] at ht
    have hstep := h.moveGroup (hm k (by simp)) hne
    have hkeys : ∀ q ∈ ks, q ∈ (GroupIndex.moveGroup f ix k).keys := by
      intro q hq
      have hqk : q ≠ k := fun e => hk (e ▸ hq)
      cases hfk : f k with
      | none => simpa [GroupIndex.moveGroup, hfk] using hm q (by simp [hq])
      | some t =>
        rw [GroupIndex.moveGroup, hfk, ← AList.mem_keys, AList.mem_insert, AList.mem_erase]
        exact .inr ⟨hqk, AList.mem_keys.2 (hm q (by simp [hq]))⟩
    apply (foldl_moveGroup hf ks hn hkeys hstep).congr
    intro v _
    by_cases hg : group v = k
    · cases hfk : f k with
      | none => simp [hg, hfk]
      | some t => simp [hg, hfk, hf _ _ hfk]
    · simp [hg]

omit [DecidableEq V] in
/-- A re-keying pass whose targets stay put moves every entry to its own target, in whatever
order the groups are visited. -/
theorem regroup {f : K → Option K} (h : Indexes ix live group)
    (hf : ∀ k t, f k = some t → f t = none) :
    Indexes (GroupIndex.regroup f ix) live (fun v => (f (group v)).getD (group v)) := by
  apply (foldl_moveGroup hf ix.keys ix.keys_nodup (fun k hk => hk) h).congr
  intro v hv
  have hk := mem_keys_of_mem_members ((h.mem _ _).2 ⟨hv, rfl⟩)
  simp [hk]

end Indexes

end GroupIndex
