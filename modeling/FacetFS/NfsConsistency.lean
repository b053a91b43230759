import FacetFS.NfsStoreChange

/-! # Consistency of the state store

Every open, lock and delegation is listed once in its table and once under its own path, the
counters of a client agree with what it holds, and every recorded owner belongs to a live state or
to the one closed stateid that a replayed CLOSE may name. The requests and the RENAMEs of a server
keep this, one step at a time. -/
namespace NfsConsistency

open NfsSeqid NfsLockRange GroupIndex NfsStore NfsOps NfsOutcomes NfsRename NfsTableInvariant
open NfsStoreChange
open NfsExclusion (Request step)

/-- Consistency of the open and lock tables. -/
structure Tidy (t : Tables) : Prop where
  indexed : Indexed t
  owned : Owned t
  opensOnce : t.opens.Nodup
  locksOnce : t.locks.Nodup
  lockIndex : Indexes t.locksByPath t.locks fun l => (t.lockState l).path
  openOwner : ∀ k ∈ t.opens, (t.openState k).owner.lock = false
  lockOwner : ∀ l ∈ t.locks, t.stateOwners l = some (t.lockState l).owner ∧
    (t.lockState l).owner.lock = true ∧ (t.lockState l).owner.client = (t.lockState l).client
  known : ∀ k o, t.stateOwners k = some o → k ∈ t.opens ∨ k ∈ t.locks ∨ o.lock = false
  closed : ∀ o j k, o.lock = false → t.stateOwners j = some o → t.stateOwners k = some o →
    j ∉ t.opens → k ∉ t.opens → j = k
  live : ∀ l ∈ t.locks, (t.lockState l).opened ∈ t.opens
  path : ∀ l ∈ t.locks, (t.openState (t.lockState l).opened).path = (t.lockState l).path
  client : ∀ l ∈ t.locks, (t.openState (t.lockState l).opened).client = (t.lockState l).client

variable {k : ℕ} {o : OwnerRef}

namespace Tidy

variable {t : Tables}

theorem ne_next (h : Tidy t) (hk : k ∈ t.opens) : k ≠ t.nextOther + 1 := by
  have := h.indexed.bound k hk
  omega

theorem lock_ne_next (h : Tidy t) {l} (hl : l ∈ t.locks) : l ≠ t.nextOther + 1 := by
  have := h.owned.lockBound l hl
  omega

theorem installOpen (h : Tidy t) {s} (hc : s.owner.client = s.client)
    (hl : s.owner.lock = false) : Tidy (t.installOpen s) where
  indexed := h.indexed.installOpen hc
  owned := h.owned.installOpen h.indexed s
  opensOnce := List.nodup_cons.2 ⟨fun hm => h.ne_next hm rfl, h.opensOnce⟩
  locksOnce := h.locksOnce
  lockIndex := h.lockIndex
  openOwner := forall_install (fun _ (s : OpenState) => s.owner.lock = false) hl h.openOwner
  lockOwner l hm := by
    simpa [Tables.installOpen, h.lock_ne_next hm] using h.lockOwner l hm
  known := forall_some_update (fun k _ o ho => (h.known k o ho).imp_left (List.mem_cons_of_mem _))
    fun _ _ => .inl List.mem_cons_self
  closed o j k ho hj hk hjd hkd := by
    have hne : ∀ i, i ∉ (t.installOpen s).opens → i ≠ t.nextOther + 1 := by
      intro i hi e
      exact hi (List.mem_cons.2 (.inl e))
    have hout : ∀ i, i ∉ (t.installOpen s).opens → i ∉ t.opens := by
      intro i hi hm
      exact hi (List.mem_cons_of_mem _ hm)
    apply h.closed o j k ho
    · simpa [Tables.installOpen, hne j hjd] using hj
    · simpa [Tables.installOpen, hne k hkd] using hk
    · exact hout j hjd
    · exact hout k hkd
  live l hm := List.mem_cons_of_mem _ (h.live l hm)
  path l hm := by
    simpa [Tables.installOpen, h.ne_next (h.live l hm)] using h.path l hm
  client l hm := by
    simpa [Tables.installOpen, h.ne_next (h.live l hm)] using h.client l hm

theorem setOpen (h : Tidy t) {s} (hp : s.path = (t.openState k).path)
    (ho : s.owner = (t.openState k).owner) (hc : s.client = (t.openState k).client) :
    Tidy (t.setOpen k s) where
  indexed := h.indexed.setOpen hp ho hc
  owned := h.owned.setOpen ho
  opensOnce := h.opensOnce
  locksOnce := h.locksOnce
  lockIndex := h.lockIndex
  openOwner j hj := by
    have hj' := h.openOwner j hj
    rwa [← update_field (f := OpenState.owner) ho j] at hj'
  lockOwner := h.lockOwner
  known := h.known
  closed := h.closed
  live := h.live
  path l hl := (update_field hp _).trans (h.path l hl)
  client l hl := (update_field hc _).trans (h.client l hl)

theorem bumpNext (h : Tidy t) {n} (hn : t.nextOther ≤ n) : Tidy { t with nextOther := n } :=
  { h with indexed := h.indexed.bumpNext hn, owned := h.owned.bumpNext hn }

theorem installLock (h : Tidy t) {s} (hl : s.owner.lock = true) (hc : s.owner.client = s.client)
    (hlive : s.opened ∈ t.opens) (hp : (t.openState s.opened).path = s.path)
    (hcl : (t.openState s.opened).client = s.client) : Tidy (t.installLock s) where
  indexed := ⟨fun k hk => le_trans (h.indexed.bound k hk) (Nat.le_succ _), h.indexed.index,
    h.indexed.client⟩
  owned := by
    refine ⟨fun k hk => ?_, fun k o hs => ?_, fun l hm => ?_, fun l hm hk => ?_⟩
    · simpa [Tables.installLock, h.ne_next hk] using h.owned.owner k hk
    · exact forall_some_update (P := fun k _ => k ≤ t.nextOther + 1)
        (fun k _ o ho => (h.owned.known k o ho).trans (Nat.le_succ _)) (fun _ _ => le_rfl) k o hs
    · rcases List.mem_cons.1 hm with rfl | hm
      · exact le_refl _
      · exact le_trans (h.owned.lockBound l hm) (Nat.le_succ _)
    · rcases List.mem_cons.1 hm with rfl | hm
      · exact h.ne_next hk rfl
      · exact h.owned.apart l hm hk
  opensOnce := h.opensOnce
  locksOnce := List.nodup_cons.2 ⟨fun hm => h.lock_ne_next hm rfl, h.locksOnce⟩
  lockIndex := h.lockIndex.install fun hm => h.lock_ne_next hm rfl
  openOwner := h.openOwner
  lockOwner := forall_install (fun l (q : LockState) => (t.installLock s).stateOwners l = some q.owner ∧
      q.owner.lock = true ∧ q.owner.client = q.client)
    ⟨by simp [Tables.installLock], hl, hc⟩ fun l hm => by
      simpa [Tables.installLock, h.lock_ne_next hm] using h.lockOwner l hm
  known := forall_some_update (fun k _ o ho => (h.known k o ho).imp_right (.imp_left
    (List.mem_cons_of_mem _))) fun _ _ => .inr (.inl List.mem_cons_self)
  closed o j k ho hj hk := by
    have hold : ∀ i, (t.installLock s).stateOwners i = some o → t.stateOwners i = some o := by
      intro i hi
      by_cases hn : i = t.nextOther + 1
      · -- the new stateid belongs to a lock-owner
        subst hn
        have he : s.owner = o := by simpa [Tables.installLock] using hi
        rw [he, ho] at hl
        cases hl
      · simpa [Tables.installLock, hn] using hi
    exact h.closed o j k ho (hold j hj) (hold k hk)
  live := forall_install (fun _ (q : LockState) => q.opened ∈ t.opens) hlive h.live
  path := forall_install (fun _ (q : LockState) => (t.openState q.opened).path = q.path) hp h.path
  client := forall_install (fun _ (q : LockState) => (t.openState q.opened).client = q.client) hcl
    h.client

theorem setRanges (h : Tidy t) (l : ℕ) (ranges : List LockRange) (seq : UInt32) :
    Tidy (t.setLock l { t.lockState l with ranges := ranges, seq := seq }) := by
  have hsame : ∀ m, ∃ rs q, (t.setLock l { t.lockState l with ranges := ranges, seq := seq }).lockState
      m = { t.lockState m with ranges := rs, seq := q } := by
    intro m
    by_cases hm : m = l
    · subst hm
      exact ⟨ranges, seq, by simp [Tables.setLock]⟩
    · exact ⟨_, _, Function.update_of_ne hm _ _⟩
  refine ⟨⟨h.indexed.bound, h.indexed.index, h.indexed.client⟩,
    ⟨h.owned.owner, h.owned.known, h.owned.lockBound, h.owned.apart⟩, h.opensOnce, h.locksOnce,
    h.lockIndex.congr fun m _ => ?_, h.openOwner, fun m hm => ?_, h.known, h.closed,
    fun m hm => ?_, fun m hm => ?_, fun m hm => ?_⟩ <;> obtain ⟨_, _, hs⟩ := hsame m <;> rw [hs]
  · exact h.lockOwner m hm
  · exact h.live m hm
  · exact h.path m hm
  · exact h.client m hm

theorem removeLock (h : Tidy t) {l} (hl : l ∉ t.opens) : Tidy ((t.removeLock l).forgetOwner l) := by
  have hkeep : ∀ m ∈ ((t.removeLock l).forgetOwner l).locks, m ∈ t.locks ∧ m ≠ l := by
    intro m hm
    simpa [Tables.removeLock, Tables.forgetOwner] using hm
  have hsub : ∀ k o, ((t.removeLock l).forgetOwner l).stateOwners k = some o →
      k ≠ l ∧ t.stateOwners k = some o := by
    intro k o hs
    by_cases hk : k = l
    · subst hk
      simp [Tables.forgetOwner] at hs
    · exact ⟨hk, by simpa [Tables.removeLock, Tables.forgetOwner, hk] using hs⟩
  refine ⟨⟨h.indexed.bound, h.indexed.index, h.indexed.client⟩,
    ⟨fun k hk => ?_, fun k o hs => ?_, fun m hm => ?_, fun m hm => ?_⟩, h.opensOnce, h.locksOnce.filter _, h.lockIndex.drop rfl, h.openOwner, fun m hm => ?_,
    fun k o hs => ?_, fun o j k ho hj hk => ?_, fun m hm => ?_, fun m hm => ?_, fun m hm => ?_⟩
  · have hne : k ≠ l := by
      rintro rfl
      exact hl hk
    simpa [Tables.removeLock, Tables.forgetOwner, hne] using h.owned.owner k hk
  · exact h.owned.known k o (hsub k o hs).2
  · exact h.owned.lockBound m (hkeep m hm).1
  · exact h.owned.apart m (hkeep m hm).1
  · simpa [Tables.removeLock, Tables.forgetOwner, (hkeep m hm).2] using
      h.lockOwner m (hkeep m hm).1
  · obtain ⟨hne, hold⟩ := hsub k o hs
    rcases h.known k o hold with hopen | hlock | hfree
    · exact .inl hopen
    · exact .inr (.inl (List.mem_filter.2 ⟨hlock, by simpa using hne⟩))
    · exact .inr (.inr hfree)
  · exact h.closed o j k ho (hsub j o hj).2 (hsub k o hk).2
  · exact h.live m (hkeep m hm).1
  · exact h.path m (hkeep m hm).1
  · exact h.client m (hkeep m hm).1

theorem removeLocks (h : Tidy t) (ls : List ℕ) (hls : ∀ l ∈ ls, l ∉ t.opens) :
    Tidy (ls.foldl (fun t l => (t.removeLock l).forgetOwner l) t) := by
  induction ls generalizing t with
  | nil => exact h
  | cons l ls ih =>
    apply ih (h.removeLock (hls l (by simp)))
    intro m hm
    exact hls m (List.mem_cons_of_mem _ hm)

theorem removeOpen (h : Tidy t) (hk : k ∈ t.opens)
    (ho : (t.openState k).owner = o) (hfree : ∀ l ∈ t.locks, (t.lockState l).opened ≠ k) :
    Tidy ((t.removeOpen k).forgetPriorClosed o k) := by
  have hkeep : ∀ j, j ∈ ((t.removeOpen k).forgetPriorClosed o k).opens ↔ j ∈ t.opens ∧ j ≠ k := by
    intro j
    simp [Tables.removeOpen, Tables.forgetPriorClosed]
  have howner := h.owned.owner k hk
  have hlock := h.openOwner k hk
  rw [ho] at howner hlock
  have hsub : ∀ j q, ((t.removeOpen k).forgetPriorClosed o k).stateOwners j = some q →
      t.stateOwners j = some q := by
    intro j q hs
    simp only [Tables.forgetPriorClosed] at hs
    split at hs
    · cases hs
    · exact hs
  have hclosed : ∀ j q, ((t.removeOpen k).forgetPriorClosed o k).stateOwners j = some q →
      j ∉ ((t.removeOpen k).forgetPriorClosed o k).opens → (q = o → j = k) ∧
        (q ≠ o → j ∉ t.opens) := by
    intro j q hs hdead
    constructor
    · rintro rfl
      by_contra hne
      have hprior : j ≠ k ∧ (t.removeOpen k).stateOwners j = some q ∧ j ∉ (t.removeOpen k).opens :=
        ⟨hne, hsub j q hs, hdead⟩
      simp only [Tables.forgetPriorClosed, if_pos hprior] at hs
      cases hs
    intro hq hj
    have hjk : j = k := by
      by_contra hne
      exact hdead ((hkeep j).2 ⟨hj, hne⟩)
    have hold := hsub j q hs
    rw [hjk, howner, Option.some.injEq] at hold
    exact hq hold.symm
  refine ⟨⟨fun j hj => ?_, h.indexed.index.drop rfl, fun j hj => ?_⟩,
    ⟨fun j hj => ?_, fun j q hs => ?_, h.owned.lockBound, fun l hl hj => ?_⟩,
    h.opensOnce.filter _, h.locksOnce, h.lockIndex, fun j hj => ?_, fun l hl => ?_,
    fun j q hs => ?_, fun q i j hq hi hj hid hjd => ?_, fun l hl => ?_, h.path, h.client⟩
  · exact h.indexed.bound j ((hkeep j).1 hj).1
  · exact h.indexed.client j ((hkeep j).1 hj).1
  · have hne : ¬ (j ≠ k ∧ (t.removeOpen k).stateOwners j = some o ∧ j ∉ (t.removeOpen k).opens) :=
      fun hprior => hprior.2.2 hj
    simp only [Tables.forgetPriorClosed, if_neg hne]
    exact h.owned.owner j ((hkeep j).1 hj).1
  · exact h.owned.known j q (hsub j q hs)
  · exact h.owned.apart l hl ((hkeep l).1 hj).1
  · exact h.openOwner j ((hkeep j).1 hj).1
  · obtain ⟨hs, hlo, hlc⟩ := h.lockOwner l hl
    refine ⟨?_, hlo, hlc⟩
    have hne : ¬ (l ≠ k ∧ (t.removeOpen k).stateOwners l = some o ∧
        l ∉ (t.removeOpen k).opens) := by
      rintro ⟨-, hown, -⟩
      have he : (t.lockState l).owner = o := by
        rw [Tables.removeOpen, hs] at hown
        exact Option.some.inj hown
      rw [he, hlock] at hlo
      cases hlo
    simp only [Tables.forgetPriorClosed, if_neg hne]
    exact hs
  · have hold := hsub j q hs
    rcases h.known j q hold with hopen | hrest
    · by_cases hjk : j = k
      · rw [hjk, howner, Option.some.injEq] at hold
        rw [← hold]
        exact .inr (.inr hlock)
      · exact .inl ((hkeep j).2 ⟨hopen, hjk⟩)
    · exact .inr hrest
  · by_cases hqo : q = o
    · rw [(hclosed i q hi hid).1 hqo, (hclosed j q hj hjd).1 hqo]
    · exact h.closed q i j hq (hsub i q hi) (hsub j q hj) ((hclosed i q hi hid).2 hqo)
        ((hclosed j q hj hjd).2 hqo)
  · exact (hkeep _).2 ⟨h.live l hl, hfree l hl⟩

theorem closeTables (h : Tidy t) (hk : k ∈ t.opens) (ho : (t.openState k).owner = o)
    (hc : t.locksBlockClose k = false) : Tidy (NfsOps.closeTables t o k) := by
  have hfree := removeEmptyLocksForOpen_free h.lockIndex h.path hc
  obtain ⟨ix, owners, he, -, -⟩ := foldl_removeLock Inv.removeLock_forgetOwner_step
    (t.locks.filter fun l => (t.lockState l).opened = k && (t.lockState l).ranges = []) t
  have hlocks : Tidy (t.removeEmptyLocksForOpen k) := by
    apply h.removeLocks
    intro l hl
    exact h.owned.apart l (List.mem_filter.1 hl).1
  have hopens : (t.removeEmptyLocksForOpen k).opens = t.opens := by
    rw [Tables.removeEmptyLocksForOpen, he]
  have hstate : (t.removeEmptyLocksForOpen k).openState = t.openState := by
    rw [Tables.removeEmptyLocksForOpen, he]
  have hclosed := hlocks.removeOpen (o := o) (by rwa [hopens]) (by rwa [hstate]) hfree
  exact hclosed.setOpen rfl rfl rfl

end Tidy

section Release

theorem foldl_removeOpen_owners (ks : List ℕ) (t : Tables)
    (h : (ks.foldl (fun t k => (t.removeOpen k).forgetOwner k) t).stateOwners k = some o) :
    t.stateOwners k = some o := by
  induction ks generalizing t with
  | nil => exact h
  | cons j ks ih =>
    have hstep := ih _ h
    by_cases hk : k = j
    · subst hk
      simp [Tables.forgetOwner] at hstep
    · simpa [Tables.forgetOwner, Tables.removeOpen, hk] using hstep

theorem foldl_removeLock_owners (ls : List ℕ) (t : Tables) :
    (ls.foldl Tables.removeLock t).stateOwners = t.stateOwners := by
  induction ls generalizing t with
  | nil => rfl
  | cons l ls ih => rw [List.foldl_cons, ih, Tables.removeLock]

/-- After a release no stateid belongs to the client, and none has a new owner. -/
theorem release_owners {t : Tables} {c : ClientID}
    (h : (t.release c).stateOwners k = some o) : t.stateOwners k = some o ∧ o.client ≠ c := by
  rw [Tables.release, Tables.releaseLocks, foldl_removeLock_owners] at h
  obtain ⟨hs, hc⟩ := Option.filter_eq_some_iff.1 h
  exact ⟨foldl_removeOpen_owners _ t hs, by simpa using hc⟩

theorem Tidy.release {t} (h : Tidy t) (c : ClientID) : Tidy (t.release c) := by
  obtain ⟨ix, ix', owners, he, ho, hi, hi', -⟩ := release_eq t c
  have hsub : ∀ k o, owners k = some o → t.stateOwners k = some o ∧ o.client ≠ c := by
    intro k o hs
    apply release_owners
    rw [he]
    exact hs
  have howned := h.owned.release h.indexed c
  rw [he] at howned ⊢
  have hopen : ∀ k, k ∈ t.opens.filter (fun k => !decide ((t.openState k).client = c)) ↔
      k ∈ t.opens ∧ (t.openState k).client ≠ c := by
    intro k
    simp
  have hlock : ∀ l, l ∈ t.locks.filter (fun l => !decide ((t.lockState l).client = c)) ↔
      l ∈ t.locks ∧ (t.lockState l).client ≠ c := by
    intro l
    simp
  -- a stateid that keeps its owner and was live stays live: the owner tells its client
  have hstay : ∀ k o, owners k = some o → k ∈ t.opens →
      k ∈ t.opens.filter (fun k => !decide ((t.openState k).client = c)) := by
    intro k o hs hk
    obtain ⟨hold, hne⟩ := hsub k o hs
    rw [h.owned.owner k hk, Option.some.injEq] at hold
    rw [hopen, ← h.indexed.client k hk, hold]
    exact ⟨hk, hne⟩
  refine ⟨⟨fun k hk => ?_, hi h.indexed.index, fun k hk => ?_⟩, howned, h.opensOnce.filter _,
    h.locksOnce.filter _, hi' h.lockIndex, fun k hk => ?_, fun l hl => ?_, fun k o hs => ?_,
    fun o j k hfree hj hk hjd hkd => ?_, fun l hl => ?_, fun l hl => ?_, fun l hl => ?_⟩
  · exact h.indexed.bound k ((hopen k).1 hk).1
  · exact h.indexed.client k ((hopen k).1 hk).1
  · exact h.openOwner k ((hopen k).1 hk).1
  · obtain ⟨hlive, hne⟩ := (hlock l).1 hl
    obtain ⟨hs, hlo, hlc⟩ := h.lockOwner l hlive
    refine ⟨ho l _ (fun hk => absurd hk (h.owned.apart l hlive)) (fun _ => hne) hs ?_, hlo, hlc⟩
    rwa [hlc]
  · obtain ⟨hold, hne⟩ := hsub k o hs
    rcases h.known k o hold with hk | hl | hfree
    · exact .inl (hstay k o hs hk)
    · obtain ⟨hown, -, hlc⟩ := h.lockOwner k hl
      rw [hold, Option.some.injEq] at hown
      refine .inr (.inl ((hlock k).2 ⟨hl, ?_⟩))
      rwa [← hlc, ← hown]
    · exact .inr (.inr hfree)
  · exact h.closed o j k hfree (hsub j o hj).1 (hsub k o hk).1
      (fun hm => hjd (hstay j o hj hm)) (fun hm => hkd (hstay k o hk hm))
  · obtain ⟨hlive, hne⟩ := (hlock l).1 hl
    rw [← h.client l hlive] at hne
    exact (hopen _).2 ⟨h.live l hlive, hne⟩
  · exact h.path l ((hlock l).1 hl).1
  · exact h.client l ((hlock l).1 hl).1

end Release

section Rename

theorem mem_movedEntries {f ix live path} (h : Indexes ix live path) (hk : k ∈ live) :
    k ∈ movedEntries f ix ↔ (f (path k)).isSome = true := by
  constructor
  · intro hm
    obtain ⟨p, -, hp⟩ := List.mem_flatMap.1 hm
    split at hp
    · rename_i hs
      rw [((h.mem p k).1 hp).2]
      exact hs
    · simp at hp
  · intro hs
    have hkey := (h.mem _ k).2 ⟨hk, rfl⟩
    refine List.mem_flatMap.2 ⟨path k, mem_keys_of_mem_members hkey, ?_⟩
    rwa [if_pos hs]

variable {st : Store} {src dst : Path}

def follow (src dst p : Path) : Path := (movedPath src dst p).getD p

theorem renamePath_lockPath {l}
    (h : Indexes st.locksByPath st.locks fun l => (st.lockState l).path) (hl : l ∈ st.locks) :
    ((renamePath st src dst).lockState l).path = follow src dst (st.lockState l).path := by
  simp only [renamePath]
  split
  · rfl
  rename_i hm
  rw [mem_movedEntries h hl, Option.isSome_iff_ne_none, not_not] at hm
  rw [follow, hm]
  rfl

theorem renamePath_delegPath {d}
    (h : Indexes st.delegsByPath st.delegs fun d => (st.delegation d).path) (hd : d ∈ st.delegs) :
    ((renamePath st src dst).delegation d).path = follow src dst (st.delegation d).path := by
  simp only [renamePath]
  split
  · rfl
  rename_i hm
  rw [mem_movedEntries h hd, Option.isSome_iff_ne_none, not_not] at hm
  rw [follow, hm]
  rfl

theorem renamePath_lockState (st : Store) (src dst : Path) (l : ℕ) :
    ∃ p, (renamePath st src dst).lockState l = { st.lockState l with path := p } := by
  simp only [renamePath]
  split
  · exact ⟨_, rfl⟩
  · exact ⟨_, rfl⟩

theorem renamePath_delegation (st : Store) (src dst : Path) (d : ℕ) :
    ∃ p, (renamePath st src dst).delegation d = { st.delegation d with path := p } := by
  simp only [renamePath]
  split
  · exact ⟨_, rfl⟩
  · exact ⟨_, rfl⟩

theorem Tidy.renamePath (h : Tidy st.toTables) (hs : src ≠ []) (h₁ : ¬ src <+: dst)
    (h₂ : ¬ dst <+: src) : Tidy (NfsRename.renamePath st src dst).toTables := by
  have hc : Change st (NfsRename.renamePath st src dst) := .rename src dst hs h₁ h₂
  have hopen : ∀ k ∈ st.opens, ((NfsRename.renamePath st src dst).openState k).path =
      follow src dst (st.openState k).path :=
    fun k hk => renamePath_path h.indexed src dst hk
  have hlock : ∀ l ∈ st.locks, ((NfsRename.renamePath st src dst).lockState l).path =
      follow src dst (st.lockState l).path :=
    fun l hl => renamePath_lockPath h.lockIndex hl
  refine ⟨h.indexed.change hc, h.owned.change h.indexed hc, h.opensOnce, h.locksOnce, ?_,
    fun k hk => ?_, fun l hl => ?_, h.known, h.closed, fun l hl => ?_, fun l hl => ?_,
    fun l hl => ?_⟩
  · exact (h.lockIndex.regroup fun p q => movedPath_stays hs h₁ h₂).congr hlock
  · obtain ⟨p, hp⟩ := renamePath_openState st src dst k
    rw [hp]
    exact h.openOwner k hk
  · obtain ⟨p, hp⟩ := renamePath_lockState st src dst l
    rw [hp]
    exact h.lockOwner l hl
  · obtain ⟨p, hp⟩ := renamePath_lockState st src dst l
    rw [hp]
    exact h.live l hl
  · rw [hlock l hl, ← h.path l hl]
    obtain ⟨p, hp⟩ := renamePath_lockState st src dst l
    rw [hp]
    exact hopen _ (h.live l hl)
  obtain ⟨p, hp⟩ := renamePath_lockState st src dst l
  obtain ⟨q, hq⟩ := renamePath_openState st src dst (st.lockState l).opened
  rw [hp]
  simp only
  rw [hq]
  exact h.client l hl

end Rename

/-- Consistency of the whole store. -/
structure Consistent (st : Store) : Prop where
  tidy : Tidy st.toTables
  delegBound : ∀ d ∈ st.delegs, d ≤ st.nextOther
  delegsOnce : st.delegs.Nodup
  delegIndex : Indexes st.delegsByPath st.delegs fun d => (st.delegation d).path
  delegApart : ∀ d ∈ st.delegs, d ∉ st.opens ∧ d ∉ st.locks
  openCount : ∀ c, (st.client c).opens = st.opens.countP fun k => (st.openState k).client = c
  delegCount : ∀ c, (st.client c).delegs = st.delegs.countP fun d => (st.delegation d).client = c
  openClient : ∀ k ∈ st.opens, (st.openState k).client ≤ st.nextClient
  delegClient : ∀ d ∈ st.delegs, (st.delegation d).client ≤ st.nextClient
  confirmed : ∀ c ∈ st.confirmed, c ≤ st.nextClient
  unconfirmed : ∀ c ∈ st.unconfirmed, c ≤ st.nextClient

theorem countP_remove {l : List ℕ} (h : l.Nodup) (hk : k ∈ l) (p : ℕ → Bool) :
    ((l.filter (· ≠ k)).countP p : ℤ) = l.countP p - if p k then 1 else 0 := by
  have he : l.filter (· ≠ k) = l.erase k := by
    rw [h.erase_eq_filter]
    apply List.filter_congr
    intro x _
    by_cases hx : x = k <;> simp [hx]
  rw [he, (List.perm_cons_erase hk).countP_eq, List.countP_cons]
  by_cases hp : p k = true
  · simp [hp]
  · simp [hp]

theorem countP_install {σ : Type} {live : List ℕ} {f : ℕ → σ} {v} (client : σ → ClientID)
    (hk : k ∉ live) (c : ClientID) :
    ((k :: live).countP fun j => client (Function.update f k v j) = c) =
      live.countP (fun j => client (f j) = c) + if client v = c then 1 else 0 := by
  have hold : (live.countP fun j => client (Function.update f k v j) = c) =
      live.countP fun j => client (f j) = c := by
    apply List.countP_congr
    intro j hj
    have hne : j ≠ k := fun e => hk (e ▸ hj)
    simp [hne]
  rw [List.countP_cons, hold, Function.update_self]
  simp

namespace Consistent

variable {st : Store}

theorem touched (h : Consistent st) {st'} (ht : Touched st st') : Consistent st' := by
  obtain ⟨htables, hn, hcs, hus, -, hd, hdel, hix, hc⟩ := ht
  cases st
  cases st'
  cases htables
  cases hn
  cases hcs
  cases hus
  cases hd
  cases hdel
  cases hix
  exact { h with
    openCount := fun c => (hc c).opens.trans (h.openCount c)
    delegCount := fun c => (hc c).delegs.trans (h.delegCount c) }

theorem setTables (h : Consistent st) {t} (ht : Tidy t) (ho : t.opens = st.opens)
    (hc : ∀ k ∈ st.opens, (t.openState k).client = (st.openState k).client)
    (hn : st.nextOther ≤ t.nextOther) (hl : ∀ l ∈ t.locks, l ∈ st.locks ∨ st.nextOther < l) :
    Consistent (st.setTables t) := by
  refine ⟨ht, fun d hd => ?_, h.delegsOnce, h.delegIndex, fun d hd => ?_, fun c => ?_,
    h.delegCount, fun k hk => ?_, h.delegClient, h.confirmed, h.unconfirmed⟩
  · exact le_trans (h.delegBound d hd) hn
  · have hb := h.delegBound d hd
    refine ⟨?_, fun hm => ?_⟩
    · rw [Store.setTables, ho]
      exact (h.delegApart d hd).1
    · rcases hl d hm with hold | hnew
      · exact (h.delegApart d hd).2 hold
      · omega
  · change (st.client c).opens = _
    rw [h.openCount c, Store.setTables, ho]
    congr 1
    apply List.countP_congr
    intro k hk
    rw [hc k hk]
  have hk' : k ∈ st.opens := by
    rw [← ho]
    exact hk
  change (t.openState k).client ≤ st.nextClient
  rw [hc k hk']
  exact h.openClient k hk'

theorem setOpen (h : Consistent st) {s} (hp : s.path = (st.openState k).path)
    (ho : s.owner = (st.openState k).owner) (hc : s.client = (st.openState k).client) :
    Consistent (st.setTables (st.toTables.setOpen k s)) := by
  exact h.setTables (h.tidy.setOpen hp ho hc) rfl (fun j _ => update_field hc j) (le_refl _)
    fun l hl => .inl hl

theorem openNew (h : Consistent st) {plan} (hl : plan.owner.lock = false)
    (hc : plan.owner.client ≤ st.nextClient) (f : Option OpenFile) :
    Consistent (NfsOps.openNew st plan f) := by
  have hne : ∀ k ∈ st.opens, k ≠ st.nextOther + 1 := fun k hk => h.tidy.ne_next hk
  have hnew : st.nextOther + 1 ∉ st.opens := fun hm => hne _ hm rfl
  refine ⟨h.tidy.installOpen rfl hl, fun d hd => ?_, h.delegsOnce, h.delegIndex, fun d hd => ?_,
    fun c => ?_, fun c => ?_, fun k hk => ?_, h.delegClient, h.confirmed, h.unconfirmed⟩
  · exact le_trans (h.delegBound d hd) (Nat.le_succ _)
  · have hb := h.delegBound d hd
    refine ⟨fun hm => ?_, (h.delegApart d hd).2⟩
    rcases List.mem_cons.1 hm with rfl | hm
    · omega
    · exact (h.delegApart d hd).1 hm
  · refine Eq.trans ?_ (congrArg Nat.cast (countP_install OpenState.client hnew c)).symm
    by_cases he : c = plan.owner.client
    · subst he
      simp [NfsOps.openNew, Store.setClient, h.openCount]
    · simp [NfsOps.openNew, Store.setClient, Store.setTables, he, Ne.symm he, h.openCount]
  · exact (update_field (f := Client.delegs) (by rfl) c).trans (h.delegCount c)
  · rcases List.mem_cons.1 hk with rfl | hk
    · simpa [NfsOps.openNew, Store.setTables, Tables.installOpen, Store.setClient] using hc
    · simpa [NfsOps.openNew, Store.setTables, Tables.installOpen, Store.setClient, hne k hk]
        using h.openClient k hk

theorem openUpgrade (h : Consistent st) (plan : OpenPlan) (f : Option OpenFile) (k : ℕ) :
    Consistent (NfsOps.openUpgrade st plan f k) := by
  have hset : Consistent (st.setTables (st.toTables.setOpen k _)) :=
    h.setOpen (k := k) (s := { st.openState k with
      seq := (st.openState k).seq + 1
      access := plan.access
      deny := plan.deny
      file := if f.isSome then f else (st.openState k).file
      flag := if f.isSome then plan.flag else (st.openState k).flag }) rfl rfl rfl
  exact hset.touched (.closeFile _ _)

theorem close (h : Consistent st) (hk : k ∈ st.opens)
    (ho : (st.openState k).owner = o) (hc : st.toTables.locksBlockClose k = false) (now : ℕ) :
    Consistent ((st.setTables (closeTables st.toTables o k)).setClient (st.openState k).client
      { st.client (st.openState k).client with
        opens := (st.client (st.openState k).client).opens - 1, lastRenew := now }) := by
  have htidy := h.tidy.closeTables hk ho hc
  obtain ⟨ix, owners, he, -⟩ := closeTables_eq st.toTables o k
  rw [he] at htidy ⊢
  have hclient : ∀ j, (Function.update st.openState k
      { st.openState k with seq := (st.openState k).seq + 1 } j).client = (st.openState j).client :=
    update_field (by rfl)
  refine ⟨htidy, h.delegBound, h.delegsOnce, h.delegIndex, fun d hd => ?_, fun c => ?_,
    fun c => ?_, fun j hj => ?_, h.delegClient, h.confirmed, h.unconfirmed⟩
  · obtain ⟨ho, hl⟩ := h.delegApart d hd
    exact ⟨fun hm => ho (List.mem_filter.1 hm).1, fun hm => hl (List.mem_filter.1 hm).1⟩
  · change _ = ((st.opens.filter (· ≠ k)).countP fun j => (Function.update st.openState k
      { st.openState k with seq := (st.openState k).seq + 1 } j).client = c : ℤ)
    simp only [hclient]
    rw [countP_remove h.tidy.opensOnce hk, ← h.openCount c]
    by_cases hcc : c = (st.openState k).client
    · subst hcc
      simp [Store.setClient]
    · simp [Store.setClient, Store.setTables, hcc, Ne.symm hcc]
  · exact (update_field (f := Client.delegs) (by rfl) c).trans (h.delegCount c)
  · exact (hclient j).trans_le (h.openClient j (List.mem_filter.1 hj).1)

theorem dropDelegation (h : Consistent st) {d} (hd : d ∈ st.delegs) :
    Consistent (st.dropDelegation d) := by
  refine ⟨h.tidy, fun e he => ?_, h.delegsOnce.filter _, h.delegIndex.drop rfl, fun e he => ?_,
    fun c => ?_, fun c => ?_, h.openClient, fun e he => ?_, h.confirmed, h.unconfirmed⟩
  · exact h.delegBound e (List.mem_filter.1 he).1
  · exact h.delegApart e (List.mem_filter.1 he).1
  · exact (update_field (f := Client.opens) (by rfl) c).trans (h.openCount c)
  · change _ = ((st.delegs.filter (· ≠ d)).countP fun e => (st.delegation e).client = c : ℤ)
    rw [countP_remove h.delegsOnce hd, ← h.delegCount c]
    by_cases hc : c = (st.delegation d).client
    · subst hc
      simp [Store.dropDelegation, Store.setClient]
    · simp [Store.dropDelegation, Store.setClient, hc, Ne.symm hc]
  · exact h.delegClient e (List.mem_filter.1 he).1

theorem revokeDelegation (h : Consistent st) {d} (hd : d ∈ st.delegs) (now : ℕ) :
    Consistent (st.revokeDelegation d now) :=
  (h.dropDelegation hd).touched ⟨rfl, rfl, rfl, rfl, rfl, rfl, rfl, rfl, fun _ => .refl _⟩

theorem markRecalled (h : Consistent st) (d now : ℕ) : Consistent { st with
      delegation := Function.update st.delegation d
        { st.delegation d with recalling := true, recallAt := now } } := by
  have hclient : ∀ e, (Function.update st.delegation d
      { st.delegation d with recalling := true, recallAt := now } e).client =
      (st.delegation e).client := update_field (by rfl)
  refine ⟨h.tidy, h.delegBound, h.delegsOnce, h.delegIndex.congr fun e _ => update_field (by rfl) e,
    h.delegApart,
    h.openCount, fun c => ?_, h.openClient, fun e he => ?_, h.confirmed, h.unconfirmed⟩
  · simp only [hclient]
    exact h.delegCount c
  · rw [hclient]
    exact h.delegClient e he

theorem foldl_delegs {α : Type} {f : α → ℕ → α} {g : α → Store}
    (hf : ∀ a d, Consistent (g a) → d ∈ (g a).delegs → Consistent (g (f a d)) ∧
      ∀ e ∈ (g a).delegs, e ≠ d → e ∈ (g (f a d)).delegs) {ds : List ℕ} {a : α}
    (h : Consistent (g a)) (hn : ds.Nodup) (hds : ∀ d ∈ ds, d ∈ (g a).delegs) :
    Consistent (g (ds.foldl f a)) := by
  induction ds generalizing a with
  | nil => exact h
  | cons d ds ih =>
    obtain ⟨hd, hn⟩ := List.nodup_cons.1 hn
    obtain ⟨hstep, hkeep⟩ := hf a d h (hds d (by simp))
    apply ih hstep hn
    intro e he
    apply hkeep e (hds e (List.mem_cons_of_mem _ he))
    rintro rfl
    exact hd he

theorem dropDelegations (h : Consistent st) (c : ClientID) : Consistent (st.dropDelegations c) := by
  refine foldl_delegs (g := id) (fun st d hst hd => ⟨hst.dropDelegation hd, ?_⟩) h
    (h.delegsOnce.filter _) fun d hd => (List.mem_filter.1 hd).1
  intro e he hne
  exact List.mem_filter.2 ⟨he, by simpa using hne⟩

theorem revokeTimedOut (h : Consistent st) (now : ℕ) : Consistent (st.revokeTimedOut now) := by
  refine foldl_delegs (g := id) (fun st d hst hd => ⟨hst.revokeDelegation hd now, ?_⟩) h
    (h.delegsOnce.filter _) fun d hd => (List.mem_filter.1 hd).1
  intro e he hne
  exact List.mem_filter.2 ⟨he, by simpa using hne⟩

theorem recallDelegations (h : Consistent st) (now : ℕ) (p : Path) (except : Option ClientID) :
    Consistent (st.recallDelegations now p except).2 := by
  refine foldl_delegs (f := Store.recallOne now except) (g := Prod.snd) (a := (false, st))
    (fun r d hst hd => ?_) h (h.delegIndex.nodup p) fun d hd => ((h.delegIndex.mem p d).1 hd).1
  simp only [Store.recallOne]
  split
  · exact ⟨hst, fun e he _ => he⟩
  split
  · refine ⟨hst.revokeDelegation hd now, fun e he hne => ?_⟩
    exact List.mem_filter.2 ⟨he, by simpa using hne⟩
  split
  · exact ⟨hst, fun e he _ => he⟩
  · exact ⟨hst.markRecalled d now, fun e he _ => he⟩

theorem grantDelegation (h : Consistent st) (ho : o.client ≤ st.nextClient)
    (p : Path) (access : UInt32) : Consistent (st.grantDelegation p o access).2 := by
  unfold Store.grantDelegation
  split
  · have hne : ∀ d ∈ st.delegs, d ≠ st.nextOther + 1 := by
      intro d hd
      have := h.delegBound d hd
      omega
    have hnew : st.nextOther + 1 ∉ st.delegs := fun hm => hne _ hm rfl
    refine ⟨h.tidy.bumpNext (Nat.le_succ _), fun d hd => ?_, ?_, ?_, fun d hd => ?_, fun c => ?_,
      fun c => ?_, h.openClient, fun d hd => ?_, h.confirmed, h.unconfirmed⟩
    · rcases List.mem_cons.1 hd with rfl | hd
      · exact le_refl _
      · exact le_trans (h.delegBound d hd) (Nat.le_succ _)
    · exact List.nodup_cons.2 ⟨hnew, h.delegsOnce⟩
    · exact h.delegIndex.install (s := ⟨1, o.client, p, false, 0⟩) hnew
    · rcases List.mem_cons.1 hd with rfl | hd
      · exact ⟨fun hm => h.tidy.ne_next hm rfl, fun hm => h.tidy.lock_ne_next hm rfl⟩
      · exact h.delegApart d hd
    · exact (update_field (f := Client.opens) (by rfl) c).trans (h.openCount c)
    · refine Eq.trans ?_ (congrArg Nat.cast (countP_install Delegation.client hnew c)).symm
      simp only [Store.setClient]
      by_cases hc : c = o.client
      · subst hc
        simp [h.delegCount]
      · simp [hc, Ne.symm hc, h.delegCount]
    · rcases List.mem_cons.1 hd with rfl | hd
      · simpa [Store.setClient] using ho
      · simpa [Store.setClient, hne d hd] using h.delegClient d hd
  · exact h

theorem registry (h : Consistent st) {cs us f}
    (hcs : ∀ c ∈ cs, c ≤ st.nextClient) (hus : ∀ c ∈ us, c ≤ st.nextClient) :
    Consistent { st with confirmed := cs, unconfirmed := us, byOwner := f } :=
  ⟨h.tidy, h.delegBound, h.delegsOnce, h.delegIndex, h.delegApart, h.openCount, h.delegCount,
    h.openClient, h.delegClient, hcs, hus⟩

theorem release (h : Consistent st) (c : ClientID) : Consistent (st.release c) := by
  obtain ⟨ix, ix', owners, he, -, -, -, -⟩ := release_eq st.toTables c
  have hreg : Consistent (st.unregister c) := by
    refine h.registry (fun d hd => ?_) h.unconfirmed
    exact h.confirmed d (List.mem_filter.1 hd).1
  have hrel : Consistent (((st.unregister c).setTables (st.toTables.release c)).setClient c
      { ((st.unregister c).setTables (st.toTables.release c)).client c with opens := 0 }) := by
    have htidy := h.tidy.release c
    rw [he] at htidy ⊢
    refine ⟨htidy, hreg.delegBound, hreg.delegsOnce, hreg.delegIndex, fun d hd => ?_, fun x => ?_,
      fun x => ?_, fun k hk => ?_, hreg.delegClient, hreg.confirmed, hreg.unconfirmed⟩
    · obtain ⟨ho, hl⟩ := h.delegApart d hd
      exact ⟨fun hm => ho (List.mem_filter.1 hm).1, fun hm => hl (List.mem_filter.1 hm).1⟩
    · change _ = ((st.opens.filter fun k => !decide ((st.openState k).client = c)).countP
        fun k => (st.openState k).client = x : ℤ)
      rw [List.countP_filter]
      by_cases hx : x = c
      · subst hx
        have hzero : (st.opens.countP fun k => decide ((st.openState k).client = x) &&
            !decide ((st.openState k).client = x)) = 0 := by
          rw [List.countP_eq_zero]
          simp
        rw [hzero]
        simp [Store.setClient]
      have hsame : (st.opens.countP fun k => decide ((st.openState k).client = x) &&
          !decide ((st.openState k).client = c)) =
          st.opens.countP fun k => (st.openState k).client = x := by
        apply List.countP_congr
        intro k _
        by_cases hk : (st.openState k).client = x
        · simp [hk, hx]
        · simp [hk]
      rw [hsame, ← h.openCount x]
      simp [Store.setClient, Store.setTables, Store.unregister, hx]
    · exact (update_field (f := Client.delegs) (by rfl) x).trans (h.delegCount x)
    · exact h.openClient k (List.mem_filter.1 hk).1
  exact (hrel.dropDelegations c).touched
    ⟨rfl, rfl, rfl, rfl, rfl, rfl, rfl, rfl, fun _ => .refl _⟩

theorem renamePath (h : Consistent st) {src dst} (hs : src ≠ []) (h₁ : ¬ src <+: dst)
    (h₂ : ¬ dst <+: src) : Consistent (NfsRename.renamePath st src dst) := by
  have hopen : ∀ k, ((NfsRename.renamePath st src dst).openState k).client =
      (st.openState k).client := by
    intro k
    obtain ⟨p, hp⟩ := renamePath_openState st src dst k
    rw [hp]
  have hdeleg : ∀ d, ((NfsRename.renamePath st src dst).delegation d).client =
      (st.delegation d).client := by
    intro d
    obtain ⟨p, hp⟩ := renamePath_delegation st src dst d
    rw [hp]
  refine ⟨h.tidy.renamePath hs h₁ h₂, h.delegBound, h.delegsOnce, ?_, h.delegApart, fun c => ?_,
    fun c => ?_, fun k hk => ?_, fun d hd => ?_, h.confirmed, h.unconfirmed⟩
  · exact (h.delegIndex.regroup fun p q => movedPath_stays hs h₁ h₂).congr
      fun d hd => renamePath_delegPath h.delegIndex hd
  · simp only [hopen]
    exact h.openCount c
  · simp only [hdeleg]
    exact h.delegCount c
  · rw [hopen]
    exact h.openClient k hk
  · rw [hdeleg]
    exact h.delegClient d hd

end Consistent

end NfsConsistency
