import FacetFS.CacheAccounting

/-! # The audit and the budget of the janitor

Reconciling reads the metadata of all closed files again and adopts the totals it finds. Eviction
deletes closed files, the least recently used ones first, until the count fits. Each of them runs
alone here; only the files on disk may be in any state. -/
namespace CacheJanitor

open EventSystem CacheRanges CacheItem CacheAccounting KeyedTotal

variable {s : State} {p : Name}

section Audit

/-- The metadata of a closed file, unless the file is missing, damaged or cannot be read. -/
def loadMeta (s : State) (readable : Name → Bool) (p : Name) : Option Meta :=
  if readable p then (s.disk.metadata.lookup p).filter Meta.valid else none

abbrev Index := AList fun _ : Name => DEntry

/-- What the items of the registry hold. -/
def liveTotal (s : State) : ℤ := total (weight (fun sl => share sl.item) s.items) s.registry

/-- The count covers what live items and the index hold. -/
structure Covered (s : State) : Prop where
  normal : ∀ i sl, s.items.lookup i = some sl → Normal sl.item.rs
  recorded : ∀ p e, s.index.lookup p = some e → 0 ≤ e.bytes
  bytes : liveTotal s + total DEntry.bytes s.index ≤ s.cachedBytes

theorem Covered.nonneg (h : Covered s) : 0 ≤ s.cachedBytes := by
  have hlive : 0 ≤ liveTotal s := by
    refine total_nonneg fun _ i _ => ?_
    rcases hi : s.items.lookup i with _ | sl
    · rw [weight_of_lookup_none hi]
    · rw [weight_of_lookup hi]
      exact share_nonneg (h.normal i sl hi)
  have hindex : 0 ≤ total DEntry.bytes s.index := total_nonneg h.recorded
  have := h.bytes
  omega

theorem Covered.deleteEntry (h : Covered s) (p : Name) : Covered (s.deleteEntry p) := by
  unfold State.deleteEntry
  split
  · exact h
  split
  · rename_i e he
    have hrec : ∀ q d, (s.index.erase p).lookup q = some d → 0 ≤ d.bytes := by
      intro q d hq
      have hne : q ≠ p := by
        rintro rfl
        rw [AList.lookup_erase] at hq
        cases hq
      exact h.recorded q d ((AList.lookup_erase_ne hne).symm.trans hq)
    have hsum := total_erase DEntry.bytes s.index p
    rw [weight_of_lookup he] at hsum
    have hbytes : liveTotal s + (total DEntry.bytes s.index - e.bytes) ≤ s.cachedBytes - e.bytes := by
      have := h.bytes
      omega
    simp only
    split
    · exact ⟨h.normal, hrec, hsum ▸ hbytes.trans (Int.sub_le_self _ (h.recorded p e he))⟩
    · exact ⟨h.normal, hrec, hsum ▸ hbytes⟩
  · exact h

end Audit

section Budget

/-- A snapshot of the index in the order of access; entries of one time stand in any order. -/
structure Candidates (index : Index) where
  list : List (Name × ℤ)
  perm : list.Perm (index.entries.map fun x => (x.1, x.2.atime))
  sorted : list.Pairwise fun a b => a.2 ≤ b.2

def evictEach (limit : ℤ) : List (Name × ℤ) → State → State
  | [], s => s
  | c :: cs, s => if s.cachedBytes ≤ limit then s else evictEach limit cs (s.deleteEntry c.1)

def evictOverBudget (limit : ℤ) (s : State) (cands : Candidates s.index) : State :=
  if s.cachedBytes ≤ limit then s else evictEach limit cands.list s

/-- A deletion that is due: the count is over the limit, and no closed file was used earlier. -/
structure Due (limit : ℤ) (s : State) (p : Name) : Prop where
  exceeds : limit < s.cachedBytes
  closed : p ∉ s.registry
  oldest : ∃ e, s.index.lookup p = some e ∧
    ∀ q d, s.index.lookup q = some d → q ∉ s.registry → e.atime ≤ d.atime

/-- Every deletion is due when it is made, and the last one leaves nothing to be done. -/
structure Evicts (limit : ℤ) (s t : State) (ps : List Name) : Prop where
  deletes : t = ps.foldl State.deleteEntry s
  due : ∀ n p, ps[n]? = some p → Due limit ((ps.take n).foldl State.deleteEntry s) p
  enough : t.cachedBytes ≤ limit ∨ ∀ p ∈ t.index, p ∈ t.registry

/-- What a deletion does not touch: the items, and the files of those in the registry. -/
structure Spares (s t : State) : Prop where
  registry : t.registry = s.registry
  items : t.items = s.items
  files : ∀ q ∈ s.registry, t.disk.metadata.lookup q = s.disk.metadata.lookup q

theorem deleteEntry_spares (s : State) (p : Name) : Spares s (s.deleteEntry p) := by
  unfold State.deleteEntry
  split
  · exact ⟨rfl, rfl, fun _ _ => rfl⟩
  rename_i hp
  split
  · simp only
    split
    · exact ⟨rfl, rfl, fun _ _ => rfl⟩
    · refine ⟨rfl, rfl, fun q hq => AList.lookup_erase_ne ?_⟩
      rintro rfl
      exact hp hq
  · exact ⟨rfl, rfl, fun _ _ => rfl⟩

theorem foldl_spares (ps : List Name) (s : State) : Spares s (ps.foldl State.deleteEntry s) := by
  induction ps generalizing s with
  | nil => exact ⟨rfl, rfl, fun _ _ => rfl⟩
  | cons p ps ih =>
    have h := deleteEntry_spares s p
    have h' := ih (s.deleteEntry p)
    refine ⟨h'.registry.trans h.registry, h'.items.trans h.items, fun q hq => ?_⟩
    exact (h'.files q (h.registry ▸ hq)).trans (h.files q hq)

theorem deleteEntry_index (hp : p ∉ s.registry) {e} (he : s.index.lookup p = some e) :
    (s.deleteEntry p).index = s.index.erase p := by
  rw [State.deleteEntry, if_neg hp, he]
  simp only
  split
  · rfl
  · rfl

/-- The candidates that are left are the closed files that are left. -/
structure Lists (s : State) (cs : List (Name × ℤ)) : Prop where
  sorted : cs.Pairwise fun a b => a.2 ≤ b.2
  once : (cs.map Prod.fst).Nodup
  all : ∀ q d, s.index.lookup q = some d → q ∉ s.registry → (q, d.atime) ∈ cs
  entry : ∀ c ∈ cs, ∃ e, s.index.lookup c.1 = some e ∧ e.atime = c.2

theorem Candidates.lists (cands : Candidates s.index) : Lists s cands.list where
  sorted := cands.sorted
  once := by
    refine ((cands.perm.map Prod.fst).nodup_iff).2 ?_
    rw [List.map_map]
    exact s.index.nodupKeys
  all q d hq _ := by
    refine cands.perm.mem_iff.2 (List.mem_map.2 ⟨⟨q, d⟩, AList.mem_lookup_iff.1 hq, rfl⟩)
  entry c hc := by
    obtain ⟨x, hx, rfl⟩ := List.mem_map.1 (cands.perm.mem_iff.1 hc)
    exact ⟨x.2, AList.mem_lookup_iff.2 hx, rfl⟩

theorem Lists.skip {c cs} (h : Lists s (c :: cs)) (hc : c.1 ∈ s.registry) : Lists s cs where
  sorted := (List.pairwise_cons.1 h.sorted).2
  once := (List.nodup_cons.1 h.once).2
  all q d hq hidle := by
    rcases List.mem_cons.1 (h.all q d hq hidle) with rfl | hmem
    · exact absurd hc hidle
    · exact hmem
  entry x hx := h.entry x (List.mem_cons_of_mem c hx)

theorem Lists.delete {c cs} (h : Lists s (c :: cs)) (hc : c.1 ∉ s.registry) :
    Lists (s.deleteEntry c.1) cs := by
  obtain ⟨e, he, -⟩ := h.entry c List.mem_cons_self
  have hindex := deleteEntry_index hc he
  obtain ⟨hnot, honce⟩ := List.nodup_cons.1 h.once
  refine ⟨(List.pairwise_cons.1 h.sorted).2, honce, fun q d hq hidle => ?_, fun x hx => ?_⟩
  · have hne : q ≠ c.1 := by
      rintro rfl
      rw [hindex, AList.lookup_erase] at hq
      cases hq
    rw [hindex, AList.lookup_erase_ne hne] at hq
    rw [(deleteEntry_spares s c.1).registry] at hidle
    rcases List.mem_cons.1 (h.all q d hq hidle) with heq | hmem
    · exact absurd (congrArg Prod.fst heq) hne
    · exact hmem
  · have hne : x.1 ≠ c.1 := fun hx' => hnot (hx' ▸ List.mem_map_of_mem hx)
    rw [hindex, AList.lookup_erase_ne hne]
    exact h.entry x (List.mem_cons_of_mem c hx)

theorem Lists.due {c cs} {limit : ℤ} (h : Lists s (c :: cs)) (hc : c.1 ∉ s.registry)
    (hover : limit < s.cachedBytes) : Due limit s c.1 := by
  obtain ⟨e, he, hatime⟩ := h.entry c List.mem_cons_self
  refine ⟨hover, hc, e, he, fun q d hq hidle => ?_⟩
  rcases List.mem_cons.1 (h.all q d hq hidle) with heq | hmem
  · exact (hatime.trans (congrArg Prod.snd heq).symm).le
  · exact hatime.le.trans ((List.pairwise_cons.1 h.sorted).1 _ hmem)

theorem evictEach_evicts (limit : ℤ) {cs} (h : Lists s cs) :
    ∃ ps, Evicts limit s (evictEach limit cs s) ps := by
  induction cs generalizing s with
  | nil =>
    refine ⟨[], rfl, nofun, .inr fun q hq => ?_⟩
    by_contra hidle
    obtain ⟨d, hd⟩ := Option.isSome_iff_exists.1 (AList.lookup_isSome.2 hq)
    cases h.all q d hd hidle
  | cons c cs ih =>
    rw [evictEach]
    split
    · rename_i hfit
      exact ⟨[], rfl, nofun, .inl hfit⟩
    rename_i hover
    by_cases hc : c.1 ∈ s.registry
    · have hskip : s.deleteEntry c.1 = s := if_pos hc
      rw [hskip]
      exact ih (h.skip hc)
    obtain ⟨ps, hdel, hdue, henough⟩ := ih (h.delete hc)
    refine ⟨c.1 :: ps, hdel, fun n p hp => ?_, henough⟩
    cases n with
    | zero =>
      cases hp
      exact h.due hc (not_le.1 hover)
    | succ n => exact hdue n p hp

/-- Eviction deletes closed files in the order of their last access. It goes on while the count is
over the limit and stops as soon as it fits; the files of items in the registry stay. -/
theorem evictOverBudget_lru (limit : ℤ) (s : State) (cands : Candidates s.index) :
    ∃ ps, Evicts limit s (evictOverBudget limit s cands) ps ∧
      Spares s (evictOverBudget limit s cands) ∧ (s.cachedBytes ≤ limit → ps = []) := by
  have h : ∃ ps, Evicts limit s (evictOverBudget limit s cands) ps := by
    unfold evictOverBudget
    split
    · rename_i hfit
      exact ⟨[], rfl, nofun, .inl hfit⟩
    · exact evictEach_evicts limit cands.lists
  obtain ⟨ps, hps⟩ := h
  refine ⟨ps, hps, hps.deletes ▸ foldl_spares ps s, fun hfit => ?_⟩
  cases ps with
  | nil => rfl
  | cons p ps => exact absurd (hps.due 0 p rfl).exceeds (not_lt.2 hfit)

end Budget

end CacheJanitor
