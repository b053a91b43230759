import FacetFS.NfsStore

/-! # The invariant of the open and lock tables

The indexes agree with the tables, share reservations and byte ranges exclude each other, and
every lock state hangs off a live open state whose access allows its ranges. Each change of
the tables is shown to keep the invariant under the check its callers make first. -/
namespace NfsTableInvariant

open NfsSeqid NfsLockRange GroupIndex NfsStore
open Function (update_of_ne update_self)

structure OpensOK (t : Tables) : Prop where
  bound : ∀ k ∈ t.opens, k ≤ t.nextOther
  index : Indexes t.byPath t.opens fun k => (t.openState k).path
  owner : ∀ k ∈ t.opens, t.stateOwners k = some (t.openState k).owner ∧
    (t.openState k).owner.lock = false ∧ (t.openState k).owner.client = (t.openState k).client
  unique : ∀ j ∈ t.opens, ∀ k ∈ t.opens, (t.openState j).path = (t.openState k).path →
    (t.openState j).owner = (t.openState k).owner → j = k
  share : ∀ j ∈ t.opens, ∀ k ∈ t.opens, (t.openState j).path = (t.openState k).path →
    (t.openState j).owner ≠ (t.openState k).owner →
    (t.openState j).access &&& (t.openState k).deny = 0

structure LocksOK (t : Tables) : Prop where
  bound : ∀ l ∈ t.locks, l ≤ t.nextOther
  index : Indexes t.locksByPath t.locks fun l => (t.lockState l).path
  owner : ∀ l ∈ t.locks, t.stateOwners l = some (t.lockState l).owner ∧
    (t.lockState l).owner.lock = true ∧ (t.lockState l).owner.client = (t.lockState l).client
  unique : ∀ l ∈ t.locks, ∀ m ∈ t.locks, (t.lockState l).path = (t.lockState m).path →
    (t.lockState l).owner = (t.lockState m).owner → l = m
  canonical : ∀ l ∈ t.locks, Canonical (t.lockState l).ranges
  exclusive : ∀ l ∈ t.locks, ∀ m ∈ t.locks, (t.lockState l).path = (t.lockState m).path →
    (t.lockState l).owner ≠ (t.lockState m).owner →
    ∀ x w, Locks (t.lockState l).ranges true x → ¬ Locks (t.lockState m).ranges w x

/-- What a lock state owes to the open state it was taken through. -/
structure Backed (t : Tables) (l : ℕ) : Prop where
  live : (t.lockState l).opened ∈ t.opens
  path : (t.openState (t.lockState l).opened).path = (t.lockState l).path
  client : (t.openState (t.lockState l).opened).client = (t.lockState l).client
  mode : ∀ r ∈ (t.lockState l).ranges,
    Tables.modeAllows (t.openState (t.lockState l).opened).access r.write = true

theorem Backed.congr {t t' l} (h : Backed t l) (hl : t'.lockState l = t.lockState l)
    (hlive : (t.lockState l).opened ∈ t'.opens)
    (ho : t'.openState (t.lockState l).opened = t.openState (t.lockState l).opened) :
    Backed t' l := by
  refine ⟨?_, ?_, ?_, ?_⟩ <;> rw [hl]
  · exact hlive
  · rw [ho, h.path]
  · rw [ho, h.client]
  · rw [ho]
    exact h.mode

structure Inv (t : Tables) : Prop where
  opens : OpensOK t
  locks : LocksOK t
  backed : ∀ l ∈ t.locks, Backed t l

variable {k l : ℕ}

section Lookups

variable {t : Tables} {p : Path} {o : OwnerRef}

theorem findOpen_some (h : OpensOK t) (hk : t.findOpen p o = some k) :
    k ∈ t.opens ∧ (t.openState k).path = p ∧ (t.openState k).owner = o := by
  have hm := (h.index.mem p k).1 (List.mem_of_find?_eq_some hk)
  exact ⟨hm.1, hm.2, by simpa using List.find?_some hk⟩

theorem findOpen_none (h : OpensOK t) (hn : t.findOpen p o = none) (hk : k ∈ t.opens)
    (hp : (t.openState k).path = p) : (t.openState k).owner ≠ o := by
  have := List.find?_eq_none.1 hn k ((h.index.mem p k).2 ⟨hk, hp⟩)
  simpa using this

theorem shareConflict_false (h : Indexes t.byPath t.opens fun k => (t.openState k).path)
    {access deny} (hc : t.shareConflict p o access deny = false) (hk : k ∈ t.opens)
    (hp : (t.openState k).path = p) (ho : (t.openState k).owner ≠ o) :
    access &&& (t.openState k).deny = 0 ∧ deny &&& (t.openState k).access = 0 := by
  have := List.any_eq_false.1 hc k ((h.mem p k).2 ⟨hk, hp⟩)
  simpa [ho] using this

theorem findLockState_none (h : LocksOK t) (hn : t.findLockState p o = none)
    (hl : l ∈ t.locks) (hp : (t.lockState l).path = p) : (t.lockState l).owner ≠ o := by
  have := List.find?_eq_none.1 hn l ((h.index.mem p l).2 ⟨hl, hp⟩)
  simpa using this

theorem lockConflict_none (h : LocksOK t) {r} (hr : NonEmpty r) (hn : t.lockConflict p o r = none)
    (hl : l ∈ t.locks) (hp : (t.lockState l).path = p) (ho : (t.lockState l).owner ≠ o) {w x}
    (hx : Locks (t.lockState l).ranges w x) (hw : w = true ∨ r.write = true) : ¬ Covers r x := by
  intro hrx
  obtain ⟨q, hq, hqw, hqx⟩ := hx
  have hs := List.findSome?_eq_none_iff.1 hn l ((h.index.mem p l).2 ⟨hl, hp⟩)
  simp only [ho, if_false, Option.map_eq_none_iff] at hs
  have hfree := List.find?_eq_none.1 hs q hq
  have hover := (rangesOverlap_iff ((h.canonical l hl).nonEmpty q hq) hr).2 ⟨x, hqx, hrx⟩
  rw [hover, hqw] at hfree
  rcases hw with rfl | hw <;> simp_all

theorem locksBlockClose_false (h : Indexes t.locksByPath t.locks fun l => (t.lockState l).path)
    (hc : t.locksBlockClose k = false) (hl : l ∈ t.locks) (hk : (t.lockState l).opened = k)
    (hp : (t.openState k).path = (t.lockState l).path) : (t.lockState l).ranges = [] := by
  have := List.any_eq_false.1 hc l ((h.mem _ l).2 ⟨hl, hp.symm⟩)
  simpa [hk] using this

theorem locksBlockDowngrade_false (h : LocksOK t) {access}
    (hc : t.locksBlockDowngrade k access = false) (hl : l ∈ t.locks)
    (hk : (t.lockState l).opened = k) (hp : (t.openState k).path = (t.lockState l).path) :
    ∀ r ∈ (t.lockState l).ranges, Tables.modeAllows access r.write = true := by
  have := List.any_eq_false.1 hc l ((h.index.mem _ l).2 ⟨hl, hp.symm⟩)
  simpa [hk] using this

end Lookups

theorem LocksOK.types_false {t} (h : LocksOK t) {m} (hl : l ∈ t.locks)
    (hm : m ∈ t.locks) (hp : (t.lockState m).path = (t.lockState l).path)
    (ho : (t.lockState m).owner ≠ (t.lockState l).owner) {x w w'}
    (hlx : Locks (t.lockState l).ranges w x) (hmx : Locks (t.lockState m).ranges w' x) :
    w = false ∧ w' = false := by
  constructor
  · by_contra hw
    rw [Bool.not_eq_false] at hw
    subst hw
    exact h.exclusive l hl m hm hp.symm (Ne.symm ho) x w' hlx hmx
  · by_contra hw
    rw [Bool.not_eq_false] at hw
    subst hw
    exact h.exclusive m hm l hl hp ho x w hmx hlx

theorem Backed.modeAt {t} (h : Backed t l) {w x} (hx : Locks (t.lockState l).ranges w x) :
    Tables.modeAllows (t.openState (t.lockState l).opened).access w = true := by
  obtain ⟨r, hr, hw, -⟩ := hx
  rw [← hw]
  exact h.mode r hr

variable {s : OpenState}

section Opens

variable {t : Tables}

theorem OpensOK.ne_next (h : OpensOK t) (hk : k ∈ t.opens) : k ≠ t.nextOther + 1 := by
  have := h.bound k hk
  omega

theorem LocksOK.ne_next (h : LocksOK t) (hl : l ∈ t.locks) : l ≠ t.nextOther + 1 := by
  have := h.bound l hl
  omega

theorem not_mem_locks (ho : OpensOK t) (hl : LocksOK t) (hk : k ∈ t.opens) : k ∉ t.locks := by
  intro hm
  obtain ⟨h1, h2, -⟩ := ho.owner k hk
  obtain ⟨h3, h4, -⟩ := hl.owner k hm
  rw [h1, Option.some.injEq] at h3
  rw [h3, h4] at h2
  cases h2

/-- The share reservations of one open state against the others on its path. -/
def Reserved (t : Tables) (k : ℕ) (s : OpenState) : Prop :=
  ∀ j ∈ t.opens, j ≠ k → (t.openState j).path = s.path →
    (t.openState j).owner ≠ s.owner ∧
      s.access &&& (t.openState j).deny = 0 ∧ s.deny &&& (t.openState j).access = 0

theorem OpensOK.replace {t'} (h : OpensOK t) (hopens : ∀ j ∈ t'.opens, j ≠ k → j ∈ t.opens)
    (hstate : t'.openState = Function.update t.openState k s) (hnext : t.nextOther ≤ t'.nextOther)
    (howner : ∀ j ∈ t'.opens, j ≠ k → t'.stateOwners j = t.stateOwners j)
    (hindex : Indexes t'.byPath t'.opens fun j => (t'.openState j).path)
    (hk : k ∈ t'.opens → k ≤ t'.nextOther ∧ t'.stateOwners k = some s.owner ∧
      s.owner.lock = false ∧ s.owner.client = s.client ∧ Reserved t k s) : OpensOK t' := by
  have hpairs := forall_pairs_update (g := t.openState) (fun i s j s' => s.path = s'.path →
    (s.owner = s'.owner → i = j) ∧ (s.owner ≠ s'.owner → s.access &&& s'.deny = 0)) hopens
    (fun _ _ => ⟨fun _ => rfl, fun ho => absurd rfl ho⟩)
    (fun hm j hj hjk => by
      have hr := (hk hm).2.2.2.2 j hj hjk
      refine ⟨fun hp => ⟨fun ho => absurd ho.symm (hr hp.symm).1, fun _ => (hr hp.symm).2.1⟩,
        fun hp => ⟨fun ho => absurd ho (hr hp).1, fun _ => ?_⟩⟩
      rw [UInt32.and_comm]
      exact (hr hp).2.2)
    (fun i hi j hj hp => ⟨h.unique i hi j hj hp, h.share i hi j hj hp⟩)
  rw [← hstate] at hpairs
  refine ⟨fun j hj => ?_, hindex, fun j hj => ?_, fun i hi j hj hp => (hpairs i hi j hj hp).1,
    fun i hi j hj hp => (hpairs i hi j hj hp).2⟩
  · by_cases hjk : j = k
    · subst hjk
      exact (hk hj).1
    · exact le_trans (h.bound j (hopens j hj hjk)) hnext
  by_cases hjk : j = k
  · subst hjk
    rw [hstate, update_self]
    exact ⟨(hk hj).2.1, (hk hj).2.2.1, (hk hj).2.2.2.1⟩
  · rw [hstate, update_of_ne hjk, howner j hj hjk]
    exact h.owner j (hopens j hj hjk)

theorem OpensOK.installOpen (h : OpensOK t) (hl : s.owner.lock = false)
    (hc : s.owner.client = s.client) (hr : Reserved t (t.nextOther + 1) s) :
    OpensOK (t.installOpen s) := by
  refine h.replace (fun j hj hjk => (List.mem_cons.1 hj).resolve_left hjk) rfl (Nat.le_succ _)
    (fun j _ hjk => update_of_ne hjk _ _) ?_
    fun _ => ⟨le_refl _, update_self _ _ _, hl, hc, hr⟩
  exact h.index.install fun hm => h.ne_next hm rfl

theorem OpensOK.setOpen (h : OpensOK t) (hp : s.path = (t.openState k).path)
    (ho : s.owner = (t.openState k).owner) (hc : s.client = (t.openState k).client)
    (hr : k ∈ t.opens → Reserved t k s) : OpensOK (t.setOpen k s) := by
  refine h.replace (fun j hj _ => hj) rfl (le_refl _) (fun _ _ _ => rfl)
    (h.index.congr fun j _ => update_field hp j) fun hk => ?_
  rw [ho, hc]
  exact ⟨h.bound k hk, (h.owner k hk).1, (h.owner k hk).2.1, (h.owner k hk).2.2, hr hk⟩

theorem filter_ne_not_mem (l ks : List ℕ) (k : ℕ) :
    (l.filter (· ≠ k)).filter (· ∉ ks) = l.filter (· ∉ k :: ks) := by
  rw [List.filter_filter]
  apply List.filter_congr
  intro x _
  simp [Bool.and_comm]

theorem foldl_removeOpen (ks : List ℕ) (t : Tables) :
    ∃ ix owners, ks.foldl (fun t k => (t.removeOpen k).forgetOwner k) t =
      { t with opens := t.opens.filter (· ∉ ks), byPath := ix, stateOwners := owners } ∧
      (∀ k, k ∉ ks → owners k = t.stateOwners k) ∧
      (Indexes t.byPath t.opens (fun k => (t.openState k).path) →
        Indexes ix (t.opens.filter (· ∉ ks)) fun k => (t.openState k).path) := by
  induction ks generalizing t with
  | nil => exact ⟨t.byPath, t.stateOwners, by simp, by simp, by simp⟩
  | cons k ks ih =>
    obtain ⟨ix, owners, he, ho, hi⟩ := ih ((t.removeOpen k).forgetOwner k)
    refine ⟨ix, owners, ?_, fun j hj => ?_, fun h => ?_⟩
    · rw [List.foldl_cons, he]
      simp only [Tables.removeOpen, Tables.forgetOwner, filter_ne_not_mem]
    · simp only [List.mem_cons, not_or] at hj
      rw [ho j hj.2]
      simp [Tables.removeOpen, Tables.forgetOwner, hj.1]
    · rw [← filter_ne_not_mem]
      exact hi (h.drop rfl)

theorem OpensOK.restrict (h : OpensOK t) {t'} (hopens : t'.opens ⊆ t.opens)
    (hstate : t'.openState = t.openState) (hnext : t.nextOther ≤ t'.nextOther)
    (howner : ∀ k ∈ t'.opens, t'.stateOwners k = t.stateOwners k)
    (hindex : Indexes t'.byPath t'.opens fun k => (t.openState k).path) : OpensOK t' where
  bound k hk := le_trans (h.bound k (hopens hk)) hnext
  index := by rwa [hstate]
  owner k hk := by
    rw [howner k hk, hstate]
    exact h.owner k (hopens hk)
  unique j hj k hk := by
    rw [hstate]
    exact h.unique j (hopens hj) k (hopens hk)
  share j hj k hk := by
    rw [hstate]
    exact h.share j (hopens hj) k (hopens hk)

end Opens

section Locks

variable {t : Tables}

theorem LocksOK.restrict (h : LocksOK t) {t'} (hlocks : t'.locks ⊆ t.locks)
    (hstate : t'.lockState = t.lockState) (hnext : t.nextOther ≤ t'.nextOther)
    (howner : ∀ l ∈ t'.locks, t'.stateOwners l = t.stateOwners l)
    (hindex : Indexes t'.locksByPath t'.locks fun l => (t.lockState l).path) : LocksOK t' where
  bound l hl := le_trans (h.bound l (hlocks hl)) hnext
  index := by rwa [hstate]
  owner l hl := by
    rw [howner l hl, hstate]
    exact h.owner l (hlocks hl)
  unique l hl m hm := by
    rw [hstate]
    exact h.unique l (hlocks hl) m (hlocks hm)
  canonical l hl := by
    rw [hstate]
    exact h.canonical l (hlocks hl)
  exclusive l hl m hm := by
    rw [hstate]
    exact h.exclusive l (hlocks hl) m (hlocks hm)

theorem foldl_removeLock {step}
    (hstep : ∀ t l, ∃ owners, step t l = { t.removeLock l with stateOwners := owners } ∧
      ∀ k, k ≠ l → owners k = t.stateOwners k) (ls : List ℕ) (t : Tables) :
    ∃ ix owners, ls.foldl step t =
      { t with locks := t.locks.filter (· ∉ ls), locksByPath := ix, stateOwners := owners } ∧
      (∀ k, k ∉ ls → owners k = t.stateOwners k) ∧
      (Indexes t.locksByPath t.locks (fun l => (t.lockState l).path) →
        Indexes ix (t.locks.filter (· ∉ ls)) fun l => (t.lockState l).path) := by
  induction ls generalizing t with
  | nil => exact ⟨t.locksByPath, t.stateOwners, by simp, by simp, by simp⟩
  | cons l ls ih =>
    obtain ⟨owners₁, hs, ho₁⟩ := hstep t l
    obtain ⟨ix, owners, he, ho, hi⟩ := ih (step t l)
    rw [hs] at he ho hi
    refine ⟨ix, owners, ?_, fun j hj => ?_, fun h => ?_⟩
    · rw [List.foldl_cons, hs, he]
      simp only [Tables.removeLock, filter_ne_not_mem]
    · simp only [List.mem_cons, not_or] at hj
      rw [ho j hj.2]
      exact ho₁ j hj.1
    · rw [← filter_ne_not_mem]
      exact hi (h.drop rfl)

/-- No byte of one owner's ranges is locked for writing in the other's, or the other way round. -/
def Clear (ranges ranges' : List LockRange) : Prop :=
  ∀ x w, (Locks ranges true x → ¬ Locks ranges' w x) ∧ (Locks ranges' true x → ¬ Locks ranges w x)

theorem LocksOK.replace {t' s} (h : LocksOK t) (hlocks : ∀ m ∈ t'.locks, m ≠ l → m ∈ t.locks)
    (hstate : t'.lockState = Function.update t.lockState l s) (hnext : t.nextOther ≤ t'.nextOther)
    (howner : ∀ m ∈ t'.locks, m ≠ l → t'.stateOwners m = t.stateOwners m)
    (hindex : Indexes t'.locksByPath t'.locks fun m => (t'.lockState m).path)
    (hl : l ∈ t'.locks → l ≤ t'.nextOther ∧ t'.stateOwners l = some s.owner ∧
      s.owner.lock = true ∧ s.owner.client = s.client ∧ Canonical s.ranges)
    (hx : l ∈ t'.locks → ∀ m ∈ t.locks, m ≠ l → (t.lockState m).path = s.path →
      (t.lockState m).owner ≠ s.owner ∧ Clear s.ranges (t.lockState m).ranges) : LocksOK t' := by
  have hpairs := forall_pairs_update (g := t.lockState) (fun i s j s' => s.path = s'.path →
    (s.owner = s'.owner → i = j) ∧ (s.owner ≠ s'.owner →
      ∀ x w, Locks s.ranges true x → ¬ Locks s'.ranges w x)) hlocks
    (fun _ _ => ⟨fun _ => rfl, fun ho => absurd rfl ho⟩)
    (fun hm j hj hjl => by
      have hr := hx hm j hj hjl
      exact ⟨fun hp => ⟨fun ho => absurd ho.symm (hr hp.symm).1,
          fun _ x w => ((hr hp.symm).2 x w).1⟩,
        fun hp => ⟨fun ho => absurd ho (hr hp).1, fun _ x w => ((hr hp).2 x w).2⟩⟩)
    (fun i hi j hj hp => ⟨h.unique i hi j hj hp, h.exclusive i hi j hj hp⟩)
  have heach : ∀ m ∈ t'.locks, m ≤ t'.nextOther ∧
      t'.stateOwners m = some (t'.lockState m).owner ∧ (t'.lockState m).owner.lock = true ∧
      (t'.lockState m).owner.client = (t'.lockState m).client ∧
      Canonical (t'.lockState m).ranges := by
    intro m hm
    by_cases hml : m = l
    · subst hml
      rw [hstate, update_self]
      exact hl hm
    have hm' := hlocks m hm hml
    rw [hstate, update_of_ne hml, howner m hm hml]
    obtain ⟨h1, h2, h3⟩ := h.owner m hm'
    exact ⟨le_trans (h.bound m hm') hnext, h1, h2, h3, h.canonical m hm'⟩
  rw [← hstate] at hpairs
  exact ⟨fun m hm => (heach m hm).1, hindex,
    fun m hm => ⟨(heach m hm).2.1, (heach m hm).2.2.1, (heach m hm).2.2.2.1⟩,
    fun i hi j hj hp => (hpairs i hi j hj hp).1, fun m hm => (heach m hm).2.2.2.2,
    fun i hi j hj hp => (hpairs i hi j hj hp).2⟩

theorem LocksOK.installLock (h : LocksOK t) {s} (hl : s.owner.lock = true)
    (hc : s.owner.client = s.client) (hcan : Canonical s.ranges)
    (hu : ∀ l ∈ t.locks, (t.lockState l).path = s.path → (t.lockState l).owner ≠ s.owner)
    (hx : ∀ l ∈ t.locks, (t.lockState l).path = s.path → Clear s.ranges (t.lockState l).ranges) :
    LocksOK (t.installLock s) := by
  refine h.replace (fun m hm hml => (List.mem_cons.1 hm).resolve_left hml) rfl (Nat.le_succ _)
    (fun m _ hml => update_of_ne hml _ _) ?_
    (fun _ => ⟨le_refl _, update_self _ _ _, hl, hc, hcan⟩)
    fun _ m hm _ hp => ⟨hu m hm hp, hx m hm hp⟩
  exact h.index.install fun hm => h.ne_next hm rfl

theorem LocksOK.setLock (h : LocksOK t) {s}
    (hp : s.path = (t.lockState l).path) (ho : s.owner = (t.lockState l).owner)
    (hc : s.client = (t.lockState l).client) (hcan : l ∈ t.locks → Canonical s.ranges)
    (hx : l ∈ t.locks → ∀ m ∈ t.locks, (t.lockState m).path = s.path →
      (t.lockState m).owner ≠ s.owner → Clear s.ranges (t.lockState m).ranges) :
    LocksOK (t.setLock l s) := by
  refine h.replace (fun m hm _ => hm) rfl (le_refl _) (fun _ _ _ => rfl)
    (h.index.congr fun m _ => update_field hp m) (fun hl => ?_) fun hl m hm hml hpm => ?_
  · rw [ho, hc]
    exact ⟨h.bound l hl, (h.owner l hl).1, (h.owner l hl).2.1, (h.owner l hl).2.2, hcan hl⟩
  · have hne : (t.lockState m).owner ≠ s.owner := fun e =>
      hml (h.unique m hm l hl (hpm.trans hp) (e.trans ho))
    exact ⟨hne, hx hl m hm hpm hne⟩

end Locks

namespace Inv

variable {t : Tables}

theorem installOpen (h : Inv t) (hl : s.owner.lock = false) (hc : s.owner.client = s.client)
    (hr : Reserved t (t.nextOther + 1) s) : Inv (t.installOpen s) where
  opens := h.opens.installOpen hl hc hr
  locks := by
    refine h.locks.restrict (fun _ hl => hl) rfl (Nat.le_succ _) (fun l hl => ?_) h.locks.index
    exact update_of_ne (h.locks.ne_next hl) _ _
  backed l hl := by
    have hb := h.backed l hl
    exact hb.congr rfl (List.mem_cons_of_mem _ hb.live)
      (update_of_ne (h.opens.ne_next hb.live) _ _)

theorem setOpen (h : Inv t) (hp : s.path = (t.openState k).path)
    (ho : s.owner = (t.openState k).owner) (hc : s.client = (t.openState k).client)
    (hr : k ∈ t.opens → Reserved t k s)
    (hm : ∀ l ∈ t.locks, (t.lockState l).opened = k → ∀ r ∈ (t.lockState l).ranges,
      Tables.modeAllows s.access r.write = true) : Inv (t.setOpen k s) where
  opens := h.opens.setOpen hp ho hc hr
  locks := h.locks.restrict (List.Subset.refl _) rfl (le_refl _) (fun _ _ => rfl) h.locks.index
  backed l hl := by
    have hb := h.backed l hl
    by_cases hk : (t.lockState l).opened = k
    · refine ⟨hb.live, ?_, ?_, ?_⟩
      · simpa [Tables.setOpen, hk, hp] using hb.path
      · simpa [Tables.setOpen, hk, hc] using hb.client
      · simpa [Tables.setOpen, hk] using hm l hl hk
    · exact hb.congr rfl hb.live (update_of_ne hk _ _)

theorem installLock (h : Inv t) {s} (hl : s.owner.lock = true)
    (hc : s.owner.client = s.client) (hcan : Canonical s.ranges)
    (hu : ∀ l ∈ t.locks, (t.lockState l).path = s.path → (t.lockState l).owner ≠ s.owner)
    (hx : ∀ l ∈ t.locks, (t.lockState l).path = s.path → Clear s.ranges (t.lockState l).ranges)
    (hlive : s.opened ∈ t.opens) (hp : (t.openState s.opened).path = s.path)
    (hcl : (t.openState s.opened).client = s.client)
    (hmode : ∀ r ∈ s.ranges,
      Tables.modeAllows (t.openState s.opened).access r.write = true) :
    Inv (t.installLock s) where
  opens := by
    refine h.opens.restrict (fun _ hk => hk) rfl (Nat.le_succ _) (fun k hk => ?_) h.opens.index
    exact update_of_ne (h.opens.ne_next hk) _ _
  locks := h.locks.installLock hl hc hcan hu hx
  backed l hm := by
    rcases List.mem_cons.1 hm with rfl | hm
    · constructor <;> simpa [Tables.installLock]
    have hb := h.backed l hm
    exact hb.congr (update_of_ne (h.locks.ne_next hm) _ _) hb.live rfl

theorem setLock (h : Inv t) {s} (hp : s.path = (t.lockState l).path)
    (ho : s.owner = (t.lockState l).owner) (hc : s.client = (t.lockState l).client)
    (hop : s.opened = (t.lockState l).opened) (hcan : l ∈ t.locks → Canonical s.ranges)
    (hx : l ∈ t.locks → ∀ m ∈ t.locks, (t.lockState m).path = s.path →
      (t.lockState m).owner ≠ s.owner → Clear s.ranges (t.lockState m).ranges)
    (hmode : l ∈ t.locks → ∀ r ∈ s.ranges,
      Tables.modeAllows (t.openState s.opened).access r.write = true) :
    Inv (t.setLock l s) where
  opens := h.opens.restrict (List.Subset.refl _) rfl (le_refl _) (fun _ _ => rfl) h.opens.index
  locks := h.locks.setLock hp ho hc hcan hx
  backed m hm := by
    have hb := h.backed m hm
    by_cases hml : m = l
    · subst hml
      refine ⟨?_, ?_, ?_, ?_⟩
      · simpa [Tables.setLock, hop] using hb.live
      · simpa [Tables.setLock, hop, hp] using hb.path
      · simpa [Tables.setLock, hop, hc] using hb.client
      · simpa [Tables.setLock] using hmode hm
    · exact hb.congr (update_of_ne hml _ _) hb.live rfl

theorem removeLocks (h : Inv t) {step : Tables → ℕ → Tables}
    (hstep : ∀ t l, ∃ owners, step t l = { t.removeLock l with stateOwners := owners } ∧
      ∀ k, k ≠ l → owners k = t.stateOwners k) {ls : List ℕ} (hls : ∀ l ∈ ls, l ∈ t.locks) :
    Inv (ls.foldl step t) := by
  obtain ⟨ix, owners, he, ho, hi⟩ := foldl_removeLock hstep ls t
  rw [he]
  refine ⟨?_, ?_, ?_⟩
  · refine h.opens.restrict (fun _ hk => hk) rfl (le_refl _) (fun k hk => ?_) h.opens.index
    exact ho k fun hm => not_mem_locks h.opens h.locks hk (hls k hm)
  · refine h.locks.restrict (List.filter_subset_self _) rfl (le_refl _) (fun l hl => ?_)
      (hi h.locks.index)
    exact ho l (by simpa using (List.mem_filter.1 hl).2)
  · intro l hl
    have hb := h.backed l (List.mem_filter.1 hl).1
    exact hb.congr rfl hb.live rfl

theorem removeLock_step (t : Tables) (l : ℕ) :
    ∃ owners, t.removeLock l = { t.removeLock l with stateOwners := owners } ∧
      ∀ k, k ≠ l → owners k = t.stateOwners k :=
  ⟨t.stateOwners, rfl, fun _ _ => rfl⟩

theorem removeLock_forgetOwner_step (t : Tables) (l : ℕ) :
    ∃ owners, (t.removeLock l).forgetOwner l = { t.removeLock l with stateOwners := owners } ∧
      ∀ k, k ≠ l → owners k = t.stateOwners k :=
  ⟨_, rfl, fun _ hk => update_of_ne hk _ _⟩

theorem removeOpen (h : Inv t) {o} (ho : o.lock = false)
    (hfree : ∀ l ∈ t.locks, (t.lockState l).opened ≠ k) :
    Inv ((t.removeOpen k).forgetPriorClosed o k) := by
  refine ⟨?_, ?_, ?_⟩
  · refine h.opens.restrict (List.filter_subset_self _) rfl (le_refl _) (fun j hj => ?_)
      (h.opens.index.drop rfl)
    have hopen : j ∈ (t.removeOpen k).opens := hj
    exact if_neg fun hprior => hprior.2.2 hopen
  · refine h.locks.restrict (fun _ hl => hl) rfl (le_refl _) (fun l hl => ?_) h.locks.index
    obtain ⟨hs, hlock, -⟩ := h.locks.owner l hl
    have hne : ¬ t.stateOwners l = some o := by
      rw [hs, Option.some.injEq]
      intro e
      rw [e, ho] at hlock
      cases hlock
    simp [Tables.forgetPriorClosed, Tables.removeOpen, hne]
  · intro l hl
    have hb := h.backed l hl
    exact hb.congr rfl (List.mem_filter.2 ⟨hb.live, decide_eq_true (hfree l hl)⟩) rfl

theorem removeEmptyLocksForOpen (h : Inv t) (k : ℕ) : Inv (t.removeEmptyLocksForOpen k) :=
  h.removeLocks removeLock_forgetOwner_step fun _ hl => (List.mem_filter.1 hl).1

/-- Ranges that change only inside a requested range stay clear of the other owners. -/
theorem setRanges (h : Inv t) {ranges} (seq : UInt32)
    (hcan : Canonical ranges)
    (hx : ∀ m ∈ t.locks, (t.lockState m).path = (t.lockState l).path →
      (t.lockState m).owner ≠ (t.lockState l).owner → ∀ x w w', Locks ranges w x →
      Locks (t.lockState m).ranges w' x → w = false ∧ w' = false)
    (hmode : ∀ w x, Locks ranges w x →
      Tables.modeAllows (t.openState (t.lockState l).opened).access w = true) :
    Inv (t.setLock l { t.lockState l with ranges := ranges, seq := seq }) := by
  refine h.setLock rfl rfl rfl rfl (fun _ => hcan) (fun _ m hm hp ho x w => ⟨?_, ?_⟩)
    (fun _ r hr => ?_)
  · intro hr hmx
    have := (hx m hm hp ho x _ _ hr hmx).1
    cases this
  · intro hmx hr
    have := (hx m hm hp ho x _ _ hr hmx).2
    cases this
  · exact hmode r.write r.start ⟨r, hr, rfl, covers_start (hcan.nonEmpty r hr)⟩

theorem bumpNext (h : Inv t) {n} (hn : t.nextOther ≤ n) : Inv { t with nextOther := n } where
  opens := h.opens.restrict (fun _ hk => hk) rfl hn (fun _ _ => rfl) h.opens.index
  locks := h.locks.restrict (fun _ hl => hl) rfl hn (fun _ _ => rfl) h.locks.index
  backed l hl := (h.backed l hl).congr rfl (h.backed l hl).live rfl

end Inv

theorem removeEmptyLocksForOpen_free {t : Tables}
    (hi : Indexes t.locksByPath t.locks fun l => (t.lockState l).path)
    (hp : ∀ l ∈ t.locks, (t.openState (t.lockState l).opened).path = (t.lockState l).path)
    (hc : t.locksBlockClose k = false) :
    ∀ l ∈ (t.removeEmptyLocksForOpen k).locks,
      ((t.removeEmptyLocksForOpen k).lockState l).opened ≠ k := by
  obtain ⟨ix, owners, he, -, -⟩ := foldl_removeLock Inv.removeLock_forgetOwner_step
    (t.locks.filter fun l => (t.lockState l).opened = k && (t.lockState l).ranges = []) t
  rw [Tables.removeEmptyLocksForOpen, he]
  intro l hl hk
  obtain ⟨hlive, hkept⟩ := List.mem_filter.1 hl
  simp only at hk
  have hempty := locksBlockClose_false hi hc hlive hk (by rw [← hp l hlive, hk])
  simp [hlive, hk, hempty] at hkept

theorem filter_not_mem_filter (l : List ℕ) (p : ℕ → Bool) :
    l.filter (· ∉ l.filter p) = l.filter fun k => !p k := by
  apply List.filter_congr
  intro k hk
  simp [hk]

theorem release_eq (t : Tables) (c : ClientID) : ∃ ix ix' owners, t.release c =
      { t with
        opens := t.opens.filter fun k => !decide ((t.openState k).client = c)
        byPath := ix
        locks := t.locks.filter fun l => !decide ((t.lockState l).client = c)
        locksByPath := ix'
        stateOwners := owners } ∧
      (∀ k o, (k ∈ t.opens → (t.openState k).client ≠ c) →
        (k ∈ t.locks → (t.lockState k).client ≠ c) → t.stateOwners k = some o →
        o.client ≠ c → owners k = some o) ∧
      (Indexes t.byPath t.opens (fun k => (t.openState k).path) →
        Indexes ix (t.opens.filter fun k => !decide ((t.openState k).client = c))
          fun k => (t.openState k).path) ∧
      (Indexes t.locksByPath t.locks (fun l => (t.lockState l).path) →
        Indexes ix' (t.locks.filter fun l => !decide ((t.lockState l).client = c))
          fun l => (t.lockState l).path) ∧
      ∀ k o, owners k = some o → k ∈ t.opens ∨ k ∈ t.locks ∨ t.stateOwners k = some o := by
  obtain ⟨ix, owners, he, ho, hi⟩ :=
    foldl_removeOpen (t.opens.filter fun k => (t.openState k).client = c) t
  rw [filter_not_mem_filter] at he hi
  obtain ⟨ix', owners', he', ho', hi'⟩ := foldl_removeLock Inv.removeLock_step
    (t.locks.filter fun l => (t.lockState l).client = c) ((t.releaseOpens c).forgetClient c)
  simp only [Tables.releaseOpens, he, Tables.forgetClient] at he' ho' hi'
  rw [filter_not_mem_filter] at he' hi'
  refine ⟨ix, ix', owners', ?_, fun k o hk hl hs hne => ?_, hi, hi', fun k o hs => ?_⟩
  · rw [← he']
    simp only [Tables.release, Tables.releaseLocks, Tables.releaseOpens, he, Tables.forgetClient]
  · rw [ho' k (by simpa using hl), ho k (by simpa using hk), hs]
    simp [hne]
  by_cases hk : k ∈ t.opens
  · exact .inl hk
  · by_cases hl : k ∈ t.locks
    · exact .inr (.inl hl)
    · rw [ho' k (by simp [hl]), ho k (by simp [hk])] at hs
      exact .inr (.inr (Option.filter_eq_some_iff.1 hs).1)

theorem Inv.release {t} (h : Inv t) (c : ClientID) : Inv (t.release c) := by
  obtain ⟨ix, ix', owners, he, ho, hi, hi', -⟩ := release_eq t c
  rw [he]
  refine ⟨?_, ?_, ?_⟩
  · refine h.opens.restrict (List.filter_subset_self _) rfl (le_refl _) (fun k hk => ?_)
      (hi h.opens.index)
    obtain ⟨hlive, hkept⟩ := List.mem_filter.1 hk
    have hne : (t.openState k).client ≠ c := by simpa using hkept
    obtain ⟨hs, -, hcl⟩ := h.opens.owner k hlive
    rw [hs]
    exact ho k _ (fun _ => hne) (fun hl => absurd hl (not_mem_locks h.opens h.locks hlive)) hs
      (by rwa [hcl])
  · refine h.locks.restrict (List.filter_subset_self _) rfl (le_refl _) (fun l hl => ?_)
      (hi' h.locks.index)
    obtain ⟨hlive, hkept⟩ := List.mem_filter.1 hl
    have hne : (t.lockState l).client ≠ c := by simpa using hkept
    obtain ⟨hs, -, hcl⟩ := h.locks.owner l hlive
    rw [hs]
    exact ho l _ (fun hk => absurd hlive (not_mem_locks h.opens h.locks hk)) (fun _ => hne) hs
      (by rwa [hcl])
  intro l hl
  obtain ⟨hlive, hkept⟩ := List.mem_filter.1 hl
  have hb := h.backed l hlive
  refine ⟨List.mem_filter.2 ⟨hb.live, ?_⟩, hb.path, hb.client, hb.mode⟩
  rw [hb.client]
  exact hkept

end NfsTableInvariant
