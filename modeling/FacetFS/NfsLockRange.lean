import FacetFS.NfsSeqid

/-! # Byte ranges of NFSv4 locks

A lock-owner's set on a file is a list of typed ranges. `Covers` gives a range its meaning
as a set of offsets; the list operations are specified through it. -/
namespace NfsLockRange

open NfsSeqid (NfsStat nfs4ErrInval)

def maxUint64 : ℕ := 2 ^ 64 - 1

/-- The field `stop` is exclusive, and zero when `toEOF` is set. -/
structure LockRange where
  start : ℕ
  stop : ℕ
  toEOF : Bool
  write : Bool
  deriving DecidableEq, Repr

def makeLockRange (offset length : UInt64) (write : Bool) : Except NfsStat LockRange :=
  if length.toNat = 0 then .error nfs4ErrInval
  else if length.toNat = maxUint64 then .ok ⟨offset.toNat, 0, true, write⟩
  else if length.toNat > maxUint64 - offset.toNat then .error nfs4ErrInval
  else .ok ⟨offset.toNat, offset.toNat + length.toNat, false, write⟩

def rangesOverlap (a b : LockRange) : Bool :=
  (a.toEOF || decide (a.stop > b.start)) && (b.toEOF || decide (b.stop > a.start))

def cutRange (cut r : LockRange) : List LockRange :=
  if !rangesOverlap r cut then [r]
  else
    (if r.start < cut.start then [⟨r.start, cut.start, false, r.write⟩] else []) ++
      (if !cut.toEOF && (r.toEOF || decide (r.stop > cut.stop)) then
        [⟨cut.stop, r.stop, r.toEOF, r.write⟩] else [])

/-- One iteration of the merging loop; `out` is kept with its last range first. -/
def mergeStep (out : List LockRange) (r : LockRange) : List LockRange :=
  match out with
  | [] => [r]
  | last :: rest =>
    if last.write = r.write ∧ (last.toEOF = true ∨ last.stop ≥ r.start) then
      (if r.toEOF then { last with toEOF := true, stop := 0 }
        else if !last.toEOF && decide (r.stop > last.stop) then { last with stop := r.stop }
        else last) :: rest
    else r :: last :: rest

def sortByStart (ranges : List LockRange) : List LockRange :=
  ranges.insertionSort fun a b => a.start ≤ b.start

def canonicalRanges (ranges : List LockRange) : List LockRange :=
  ((sortByStart ranges).foldl mergeStep []).reverse

def subtractRange (held : List LockRange) (cut : LockRange) : List LockRange :=
  canonicalRanges (held.flatMap (cutRange cut))

def setLockRange (held : List LockRange) (add : LockRange) : List LockRange :=
  canonicalRanges (subtractRange held add ++ [add])

def lockRangeLength (r : LockRange) : ℕ :=
  if r.toEOF then maxUint64 else r.stop - r.start

def Covers (r : LockRange) (x : ℕ) : Prop :=
  r.start ≤ x ∧ (r.toEOF = true ∨ x < r.stop)

/-- The offsets a list of ranges locks with a given type. -/
def Locks (rs : List LockRange) (write : Bool) (x : ℕ) : Prop :=
  ∃ r ∈ rs, r.write = write ∧ Covers r x

structure NonEmpty (r : LockRange) : Prop where
  start_le : r.start ≤ maxUint64
  lt : r.toEOF = false → r.start < r.stop ∧ r.stop ≤ maxUint64
  eof : r.toEOF = true → r.stop = 0

def Below (a b : LockRange) : Prop :=
  a.toEOF = false ∧ a.stop ≤ b.start

/-- The first range lies before the second, and they do not touch if their types agree. -/
def Apart (a b : LockRange) : Prop :=
  Below a b ∧ (a.write = b.write → a.stop < b.start)

structure Canonical (rs : List LockRange) : Prop where
  nonEmpty : ∀ r ∈ rs, NonEmpty r
  apart : rs.Pairwise Apart

variable {r : LockRange}

theorem makeLockRange_nonEmpty {offset length write}
    (h : makeLockRange offset length write = .ok r) : NonEmpty r ∧ r.write = write := by
  have ho := offset.toNat_lt
  have hl := length.toNat_lt
  unfold makeLockRange at h
  split at h
  · cases h
  split at h
  · cases h
    exact ⟨⟨by simp [maxUint64]; omega, by simp, by simp⟩, rfl⟩
  split at h
  · cases h
  · cases h
    refine ⟨⟨?_, ?_, by simp⟩, rfl⟩ <;> simp [maxUint64] at * <;> omega

theorem covers_start (h : NonEmpty r) : Covers r r.start := by
  cases he : r.toEOF with
  | true => exact ⟨le_refl _, .inl he⟩
  | false => exact ⟨le_refl _, .inr (h.lt he).1⟩

variable {a b : LockRange}

theorem rangesOverlap_iff (ha : NonEmpty a) (hb : NonEmpty b) :
    rangesOverlap a b = true ↔ ∃ x, Covers a x ∧ Covers b x := by
  have h1 := ha.lt
  have h2 := hb.lt
  simp only [rangesOverlap, Bool.and_eq_true, Bool.or_eq_true, decide_eq_true_eq, Covers]
  constructor
  · intro h
    refine ⟨max a.start b.start, ?_⟩
    cases hea : a.toEOF <;> cases heb : b.toEOF <;> simp_all
  · rintro ⟨x, h, h'⟩
    cases hea : a.toEOF <;> cases heb : b.toEOF <;> simp_all <;> omega

theorem disjoint_of_not_overlap (h : rangesOverlap a b = false) {x}
    (ha : Covers a x) : ¬ Covers b x := by
  intro hb
  simp only [rangesOverlap, Bool.and_eq_false_iff, Bool.or_eq_false_iff,
    decide_eq_false_iff_not] at h
  obtain ⟨ha1, ha2⟩ := ha
  obtain ⟨hb1, hb2⟩ := hb
  rcases h with ⟨he, hs⟩ | ⟨he, hs⟩ <;> simp [he] at ha2 hb2 <;> omega

variable {cut : LockRange} (x : ℕ)

theorem cutRange_covers : (∃ p ∈ cutRange cut r, Covers p x) ↔ Covers r x ∧ ¬ Covers cut x := by
  cases ho : rangesOverlap r cut with
  | false =>
    simp only [cutRange, ho, Bool.not_false, if_true, List.mem_singleton, exists_eq_left]
    constructor
    · intro h
      exact ⟨h, disjoint_of_not_overlap ho h⟩
    · intro h
      exact h.1
  | true =>
    have ho' := ho
    simp only [rangesOverlap, Bool.and_eq_true, Bool.or_eq_true, decide_eq_true_eq] at ho'
    by_cases h1 : r.start < cut.start <;> cases h2 : cut.toEOF <;> cases h3 : r.toEOF <;>
      by_cases h4 : cut.stop < r.stop <;>
      simp [cutRange, ho, Covers, h1, h2, h3, h4] at ho' ⊢ <;> omega

theorem cutRange_write {p} (h : p ∈ cutRange cut r) : p.write = r.write := by
  unfold cutRange at h
  split at h
  · simp_all
  · rw [List.mem_append] at h
    rcases h with h | h <;> split at h <;> simp_all

theorem cutRange_nonEmpty {p} (hc : NonEmpty cut) (hr : NonEmpty r)
    (h : p ∈ cutRange cut r) : NonEmpty p := by
  have h1 := hc.start_le
  have h2 := hc.lt
  have h3 := hr.lt
  unfold cutRange at h
  split at h
  · simp_all
  rw [List.mem_append] at h
  rcases h with h | h <;> split at h <;> simp at h
  · subst h
    exact ⟨hr.start_le, by simp; omega, by simp⟩
  rename_i hcond
  subst h
  simp only [Bool.and_eq_true, Bool.not_eq_true', Bool.or_eq_true, decide_eq_true_eq] at hcond
  refine ⟨(h2 hcond.1).2, fun he => ?_, hr.eof⟩
  simp only at he ⊢
  rw [he] at hcond
  exact ⟨by simpa using hcond.2, (h3 he).2⟩

def Disjoint (a b : LockRange) : Prop :=
  ∀ x, Covers a x → ¬ Covers b x

theorem Disjoint.symm (h : Disjoint a b) : Disjoint b a :=
  fun x hb ha => h x ha hb

instance : Std.Symm Disjoint := ⟨fun _ _ h => h.symm⟩

theorem Below.disjoint (h : Below a b) : Disjoint a b := by
  intro x ha hb
  obtain ⟨he, hs⟩ := h
  obtain ⟨-, ha⟩ := ha
  obtain ⟨hb, -⟩ := hb
  simp [he] at ha
  omega

theorem cutRange_disjoint (hc : NonEmpty cut) (r : LockRange) :
    (cutRange cut r).Pairwise Disjoint := by
  unfold cutRange
  split
  · simp
  split <;> split <;> simp
  rename_i h1 h2
  intro x ha hb
  obtain ⟨-, ha⟩ := ha
  obtain ⟨hb, -⟩ := hb
  simp at ha hb h2
  have := (hc.lt h2.1).1
  omega

variable {held : List LockRange}

theorem flatMap_cutRange_disjoint (hc : NonEmpty cut) (h : held.Pairwise Disjoint) :
    (held.flatMap (cutRange cut)).Pairwise Disjoint := by
  rw [List.pairwise_flatMap]
  refine ⟨fun r _ => cutRange_disjoint hc r, h.imp fun {a b} hab p hp q hq x hpx hqx => ?_⟩
  exact hab x ((cutRange_covers x).1 ⟨p, hp, hpx⟩).1 ((cutRange_covers x).1 ⟨q, hq, hqx⟩).1

/-- The ranges merged so far, the last one first. -/
structure Merged (out : List LockRange) : Prop where
  nonEmpty : ∀ r ∈ out, NonEmpty r
  apart : out.Pairwise fun a b => Apart b a

variable {out : List LockRange}

theorem mergeStep_cases (h : Merged out) (hr : NonEmpty r) (hb : ∀ a ∈ out, Below a r) :
    (∃ last rest, out = last :: rest ∧ last.write = r.write ∧ last.stop = r.start ∧
      mergeStep out r = ⟨last.start, r.stop, r.toEOF, r.write⟩ :: rest) ∨
    ((∀ a ∈ out, Apart a r) ∧ mergeStep out r = r :: out) := by
  cases out with
  | nil => simp [mergeStep]
  | cons last rest =>
    have hlast := hb last (by simp)
    have hle := hlast.2
    by_cases ht : last.write = r.write ∧ last.stop = r.start
    · refine .inl ⟨last, rest, rfl, ht.1, ht.2, ?_⟩
      cases he : r.toEOF with
      | true => simp [mergeStep, ht, he, hr.eof he]
      | false => simp [mergeStep, ht, he, hlast.1, (hr.lt he).1]
    have hlt : last.write = r.write → last.stop < r.start := by
      intro hw
      have : last.stop ≠ r.start := fun e => ht ⟨hw, e⟩
      omega
    have hn : ¬ (last.write = r.write ∧ (last.toEOF = true ∨ last.stop ≥ r.start)) := by
      intro hc
      have := hlt hc.1
      have := hc.2
      simp [hlast.1] at this
      omega
    refine .inr ⟨fun a ha => ⟨hb a ha, fun hw => ?_⟩, by simp [mergeStep, hn]⟩
    rcases List.mem_cons.1 ha with rfl | ha
    · exact hlt hw
    have := ((List.pairwise_cons.1 h.apart).1 a ha).1.2
    have := ((h.nonEmpty last (by simp)).lt hlast.1).1
    omega

theorem Below.trans (hr : NonEmpty r) (h1 : Below a r) (h2 : Below r b) : Below a b := by
  have := (hr.lt h2.1).1
  have := h1.2
  have := h2.2
  exact ⟨h1.1, by omega⟩

theorem mergeStep_merged (h : Merged out)
    (hr : NonEmpty r) (hb : ∀ a ∈ out, Below a r) : Merged (mergeStep out r) := by
  rcases mergeStep_cases h hr hb with ⟨last, rest, rfl, hw, ht, hm⟩ | ⟨ha, hm⟩
  · obtain ⟨hap, hrest⟩ := List.pairwise_cons.1 h.apart
    have hln := (h.nonEmpty last (by simp)).lt (hb last (by simp)).1
    rw [hm]
    constructor
    · intro a ha
      rcases List.mem_cons.1 ha with rfl | ha
      · refine ⟨(h.nonEmpty last (by simp)).start_le, fun he => ?_, hr.eof⟩
        have := hr.lt he
        simp only
        omega
      · exact h.nonEmpty a (by simp [ha])
    · rw [List.pairwise_cons]
      refine ⟨fun a ha => ?_, hrest⟩
      have := hap a ha
      exact ⟨this.1, fun hwa => this.2 (hwa.trans hw.symm)⟩
  · rw [hm]
    exact ⟨by simpa using ⟨hr, h.nonEmpty⟩, List.pairwise_cons.2 ⟨ha, h.apart⟩⟩

theorem mergeStep_below (h : Merged out) (hr : NonEmpty r) (hb : ∀ a ∈ out, Below a r)
    (hrb : Below r b) : ∀ a ∈ mergeStep out r, Below a b := by
  intro a ha
  rcases mergeStep_cases h hr hb with ⟨last, rest, rfl, hw, ht, hm⟩ | ⟨-, hm⟩
  · rw [hm] at ha
    rcases List.mem_cons.1 ha with rfl | ha
    · exact hrb
    · exact (hb a (by simp [ha])).trans hr hrb
  rw [hm] at ha
  rcases List.mem_cons.1 ha with rfl | ha
  · exact hrb
  · exact (hb a ha).trans hr hrb

theorem locks_cons (r : LockRange) (rs : List LockRange) (w : Bool) (x : ℕ) :
    Locks (r :: rs) w x ↔ (r.write = w ∧ Covers r x) ∨ Locks rs w x := by
  simp [Locks]

theorem mergeStep_locks (h : Merged out) (hr : NonEmpty r) (hb : ∀ a ∈ out, Below a r) (w : Bool)
    (x : ℕ) : Locks (mergeStep out r) w x ↔ Locks (r :: out) w x := by
  rcases mergeStep_cases h hr hb with ⟨last, rest, rfl, hw, ht, hm⟩ | ⟨-, hm⟩
  · have hlast := hb last (by simp)
    have hln := (h.nonEmpty last (by simp)).lt hlast.1
    have hcov : Covers ⟨last.start, r.stop, r.toEOF, r.write⟩ x ↔
        Covers last x ∨ Covers r x := by
      simp only [Covers, hlast.1]
      cases he : r.toEOF with
      | true => simp; omega
      | false =>
        have := (hr.lt he).1
        simp
        omega
    rw [hm, locks_cons, locks_cons, locks_cons, hcov, hw]
    by_cases hrw : r.write = w <;> simp [hrw, or_comm, or_assoc]
  · rw [hm]

variable {rs : List LockRange}

theorem foldl_mergeStep :
    ∀ {out : List LockRange}, Merged out → (∀ r ∈ rs, NonEmpty r) → rs.Pairwise Below →
      (∀ r ∈ rs, ∀ a ∈ out, Below a r) →
      Merged (rs.foldl mergeStep out) ∧
        ∀ w x, Locks (rs.foldl mergeStep out) w x ↔ Locks out w x ∨ Locks rs w x := by
  induction rs with
  | nil =>
    intro out h _ _ _
    exact ⟨h, by simp [Locks]⟩
  | cons r rs ih =>
    intro out h hne hs hb
    obtain ⟨hrs, hs⟩ := List.pairwise_cons.1 hs
    have hr := hne r (by simp)
    have hbr := hb r (by simp)
    obtain ⟨hm, hl⟩ := ih (mergeStep_merged h hr hbr) (fun q hq => hne q (by simp [hq])) hs
      (fun q hq => mergeStep_below h hr hbr (hrs q hq))
    refine ⟨hm, fun w x => ?_⟩
    rw [List.foldl_cons, hl, mergeStep_locks h hr hbr, locks_cons, locks_cons, or_assoc,
      or_left_comm]

theorem locks_congr {qs} (h : ∀ r, r ∈ rs ↔ r ∈ qs) (w : Bool) (x : ℕ) :
    Locks rs w x ↔ Locks qs w x := by
  simp [Locks, h]

theorem below_of_disjoint (hb : NonEmpty b) (hs : a.start ≤ b.start)
    (hd : Disjoint a b) : Below a b := by
  have hn : ¬ Covers a b.start := fun ha => hd _ ha (covers_start hb)
  simp only [Covers, hs, true_and, not_or, not_lt, Bool.not_eq_true] at hn
  exact hn

theorem sortByStart_sorted (rs : List LockRange) :
    (sortByStart rs).Pairwise fun a b => a.start ≤ b.start := by
  have htotal : Std.Total fun a b : LockRange => a.start ≤ b.start :=
    ⟨fun a b => le_total a.start b.start⟩
  have htrans : IsTrans LockRange fun a b => a.start ≤ b.start :=
    ⟨fun _ _ _ => le_trans⟩
  exact List.pairwise_insertionSort _ rs

theorem sortByStart_below (hne : ∀ r ∈ rs, NonEmpty r)
    (hd : rs.Pairwise Disjoint) : (sortByStart rs).Pairwise Below := by
  have hp : (sortByStart rs).Perm rs := List.perm_insertionSort _ rs
  have hd' : (sortByStart rs).Pairwise Disjoint :=
    (hp.pairwise_iff fun h => Disjoint.symm h).2 hd
  apply ((sortByStart_sorted rs).and hd').imp_of_mem
  intro a b _ hb h
  exact below_of_disjoint (hne b (hp.mem_iff.1 hb)) h.1 h.2

theorem canonicalRanges_spec (hne : ∀ r ∈ rs, NonEmpty r) (hd : rs.Pairwise Disjoint) :
    Canonical (canonicalRanges rs) ∧
      ∀ w x, Locks (canonicalRanges rs) w x ↔ Locks rs w x := by
  have hp : (sortByStart rs).Perm rs := List.perm_insertionSort _ rs
  have hnil : Merged [] := ⟨by simp, by simp⟩
  obtain ⟨hm, hl⟩ := foldl_mergeStep hnil (fun r hr => hne r (hp.mem_iff.1 hr))
    (sortByStart_below hne hd) (by simp)
  refine ⟨⟨fun r hr => hm.nonEmpty r (by simpa [canonicalRanges] using hr), ?_⟩, fun w x => ?_⟩
  · rw [canonicalRanges, List.pairwise_reverse]
    exact hm.apart
  calc Locks (canonicalRanges rs) w x
    _ ↔ Locks ((sortByStart rs).foldl mergeStep []) w x :=
      locks_congr (by simp [canonicalRanges]) w x
    _ ↔ Locks [] w x ∨ Locks (sortByStart rs) w x := hl w x
    _ ↔ Locks (sortByStart rs) w x := by simp [Locks]
    _ ↔ Locks rs w x := locks_congr (fun r => hp.mem_iff) w x

theorem Canonical.disjoint (h : Canonical rs) : rs.Pairwise Disjoint :=
  h.apart.imp fun h => h.1.disjoint

theorem subtractRange_spec (h : Canonical held) (hc : NonEmpty cut) :
    Canonical (subtractRange held cut) ∧
      ∀ w x, Locks (subtractRange held cut) w x ↔ Locks held w x ∧ ¬ Covers cut x := by
  have hne : ∀ r ∈ held.flatMap (cutRange cut), NonEmpty r := by
    intro p hp
    obtain ⟨r, hr, hp⟩ := List.mem_flatMap.1 hp
    exact cutRange_nonEmpty hc (h.nonEmpty r hr) hp
  obtain ⟨hcan, hl⟩ := canonicalRanges_spec hne (flatMap_cutRange_disjoint hc h.disjoint)
  refine ⟨hcan, fun w x => ?_⟩
  rw [subtractRange, hl]
  constructor
  · rintro ⟨p, hp, hw, hx⟩
    obtain ⟨r, hr, hp⟩ := List.mem_flatMap.1 hp
    obtain ⟨hrx, hcx⟩ := (cutRange_covers x).1 ⟨p, hp, hx⟩
    exact ⟨⟨r, hr, (cutRange_write hp).symm.trans hw, hrx⟩, hcx⟩
  · rintro ⟨⟨r, hr, hw, hrx⟩, hcx⟩
    obtain ⟨p, hp, hx⟩ := (cutRange_covers x).2 ⟨hrx, hcx⟩
    exact ⟨p, List.mem_flatMap.2 ⟨r, hr, hp⟩, (cutRange_write hp).trans hw, hx⟩

theorem setLockRange_spec {add} (h : Canonical held) (ha : NonEmpty add) :
    Canonical (setLockRange held add) ∧
      ∀ w x, Locks (setLockRange held add) w x ↔
        (Locks held w x ∧ ¬ Covers add x) ∨ (add.write = w ∧ Covers add x) := by
  obtain ⟨hcan, hl⟩ := subtractRange_spec h ha
  have hne : ∀ r ∈ subtractRange held add ++ [add], NonEmpty r := by
    intro r hr
    rcases List.mem_append.1 hr with hr | hr
    · exact hcan.nonEmpty r hr
    · obtain rfl : r = add := by simpa using hr
      exact ha
  have hd : (subtractRange held add ++ [add]).Pairwise Disjoint := by
    rw [List.pairwise_append]
    refine ⟨hcan.disjoint, by simp, fun r hr b hb x hx => ?_⟩
    obtain rfl : b = add := by simpa using hb
    exact ((hl r.write x).1 ⟨r, hr, rfl, hx⟩).2
  obtain ⟨hcan', hl'⟩ := canonicalRanges_spec hne hd
  refine ⟨hcan', fun w x => ?_⟩
  rw [setLockRange, hl', ← hl w x]
  simp [Locks, or_and_right, exists_or]

theorem sortByStart_of_below (hne : ∀ r ∈ rs, NonEmpty r)
    (h : rs.Pairwise Below) : sortByStart rs = rs := by
  refine List.Pairwise.insertionSort_eq (h.imp_of_mem fun {a b} ha _ hab => ?_)
  have hlt := ((hne a ha).lt hab.1).1
  have hle := hab.2
  omega

theorem foldl_mergeStep_of_apart (h : Merged out)
    (hne : ∀ r ∈ rs, NonEmpty r) (hs : rs.Pairwise Apart) (ho : ∀ r ∈ rs, ∀ a ∈ out, Apart a r) :
    rs.foldl mergeStep out = rs.reverse ++ out := by
  induction rs generalizing out with
  | nil => rfl
  | cons r rs ih =>
    obtain ⟨hr, hs⟩ := List.pairwise_cons.1 hs
    have hbelow : ∀ a ∈ out, Below a r := fun a ha => (ho r List.mem_cons_self a ha).1
    have hmerged := mergeStep_merged h (hne r List.mem_cons_self) hbelow
    have hstep : mergeStep out r = r :: out := by
      rcases mergeStep_cases h (hne r List.mem_cons_self) hbelow with
        ⟨last, rest, rfl, hw, ht, -⟩ | ⟨-, hm⟩
      · have hlt := (ho r List.mem_cons_self last List.mem_cons_self).2 hw
        omega
      · exact hm
    rw [hstep] at hmerged
    rw [List.foldl_cons, hstep, ih hmerged (fun q hq => hne q (List.mem_cons_of_mem r hq)) hs ?_]
    · simp
    · intro q hq a ha
      rcases List.mem_cons.1 ha with rfl | ha
      · exact hr q hq
      · exact ho q (List.mem_cons_of_mem r hq) a ha

theorem canonicalRanges_of_canonical (h : Canonical rs) : canonicalRanges rs = rs := by
  have hnil : Merged [] := ⟨by simp, by simp⟩
  rw [canonicalRanges, sortByStart_of_below h.nonEmpty (h.apart.imp fun ha => ha.1),
    foldl_mergeStep_of_apart hnil h.nonEmpty h.apart (by simp)]
  simp

theorem flatMap_cutRange_of_apart
    (h : ∀ r ∈ held, rangesOverlap r cut = false) : held.flatMap (cutRange cut) = held := by
  induction held with
  | nil => rfl
  | cons r held ih =>
    have hr : cutRange cut r = [r] := by simp [cutRange, h r List.mem_cons_self]
    rw [List.flatMap_cons, hr, ih fun q hq => h q (List.mem_cons_of_mem r hq)]
    rfl

theorem setLockRange_append {add}
    (h : Canonical (held ++ [add])) : setLockRange held add = held ++ [add] := by
  obtain ⟨hheld, -, hadd⟩ := List.pairwise_append.1 h.apart
  have hcan : Canonical held := ⟨fun r hr => h.nonEmpty r (List.mem_append_left _ hr), hheld⟩
  have hover : ∀ r ∈ held, rangesOverlap r add = false := by
    intro r hr
    obtain ⟨he, hle⟩ := (hadd r hr add List.mem_cons_self).1
    have hstop : decide (r.stop > add.start) = false := decide_eq_false (by omega)
    rw [rangesOverlap, he, hstop]
    rfl
  rw [setLockRange, subtractRange, flatMap_cutRange_of_apart hover,
    canonicalRanges_of_canonical hcan, canonicalRanges_of_canonical h]

instance (r : LockRange) (x : ℕ) : Decidable (Covers r x) :=
  inferInstanceAs (Decidable (_ ∧ (_ ∨ _)))

def lockAt (rs : List LockRange) (x : ℕ) : Option Bool :=
  (rs.find? fun r => Covers r x).map LockRange.write

theorem lockAt_eq_some (h : Canonical rs) {x w} : lockAt rs x = some w ↔ Locks rs w x := by
  constructor
  · intro hw
    obtain ⟨r, hr, rfl⟩ := Option.map_eq_some_iff.1 hw
    exact ⟨r, List.mem_of_find?_eq_some hr, rfl, by simpa using List.find?_some hr⟩
  rintro ⟨r, hr, rfl, hx⟩
  cases hf : rs.find? fun r => Covers r x with
  | none =>
    rw [List.find?_eq_none] at hf
    exact absurd (decide_eq_true hx) (hf r hr)
  | some q =>
    have hq := List.mem_of_find?_eq_some hf
    have hqx : Covers q x := by simpa using List.find?_some hf
    -- Two ranges that cover one offset are the same, as the list is disjoint.
    have heq : q = r := by
      by_contra hne
      exact h.disjoint.forall hq hr hne x hqx hx
    rw [lockAt, hf, heq]
    rfl

theorem lockAt_congr {qs} (hr : Canonical rs) (hq : Canonical qs) {x}
    (h : ∀ w, Locks rs w x ↔ Locks qs w x) : lockAt rs x = lockAt qs x := by
  refine Option.ext fun w => ?_
  rw [lockAt_eq_some hr, lockAt_eq_some hq]
  exact h w

theorem lockAt_subtractRange (h : Canonical held) (hc : NonEmpty cut) (x : ℕ) :
    lockAt (subtractRange held cut) x = if Covers cut x then none else lockAt held x := by
  obtain ⟨hcan, hl⟩ := subtractRange_spec h hc
  split
  · rename_i hx
    rw [Option.eq_none_iff_forall_ne_some]
    intro w hw
    exact ((hl w x).1 ((lockAt_eq_some hcan).1 hw)).2 hx
  rename_i hx
  refine lockAt_congr hcan h fun w => ?_
  rw [hl, and_iff_left hx]

theorem lockAt_setLockRange {add} (h : Canonical held) (ha : NonEmpty add) (x : ℕ) :
    lockAt (setLockRange held add) x = if Covers add x then some add.write else lockAt held x := by
  obtain ⟨hcan, hl⟩ := setLockRange_spec h ha
  split
  · rename_i hx
    rw [lockAt_eq_some hcan, hl]
    exact .inr ⟨rfl, hx⟩
  rename_i hx
  refine lockAt_congr hcan h fun w => ?_
  rw [hl]
  simp only [hx, not_false_eq_true, and_true, and_false, or_false]

/-- The sum and the difference that are computed for a range do not overflow. -/
theorem makeLockRange_exact {offset length write} (h : makeLockRange offset length write = .ok r) :
    ((0 - 1 : UInt64) - offset).toNat = maxUint64 - offset.toNat ∧
    (r.toEOF = false → (offset + length).toNat = r.stop) ∧
    ∀ x, x ≤ maxUint64 → (Covers r x ↔ offset.toNat ≤ x ∧
      (length.toNat = maxUint64 ∨ x < offset.toNat + length.toNat)) := by
  have ho := offset.toNat_lt
  have hmax : ((0 - 1 : UInt64) - offset).toNat = maxUint64 - offset.toNat := by
    have hle : offset ≤ (0 - 1 : UInt64) := by
      rw [UInt64.le_iff_toNat_le]
      simp
      omega
    rw [UInt64.toNat_sub_of_le _ _ hle]
    rfl
  refine ⟨hmax, ?_⟩
  unfold makeLockRange at h
  split at h
  · cases h
  split at h
  · rename_i hall
    cases h
    refine ⟨nofun, fun x hx => ?_⟩
    simp only [Covers, hall, true_or, and_true]
  split at h
  · cases h
  rename_i hne hfit
  cases h
  refine ⟨fun _ => ?_, fun x hx => ?_⟩
  · rw [UInt64.toNat_add, Nat.mod_eq_of_lt]
    simp only [maxUint64] at hfit
    omega
  · simp only [Covers, hne, false_or, Bool.false_eq_true]

/-- Unlocking and locking a range keep the list canonical, change the lock on the bytes of the
range only, and compute with offsets only. -/
theorem lock_algebra {held : List LockRange} {offset length : UInt64} {write : Bool} {r : LockRange}
    (h : Canonical held) (hr : makeLockRange offset length write = .ok r) :
    Canonical (subtractRange held r) ∧ Canonical (setLockRange held r) ∧
    (∀ x, x ≤ maxUint64 →
      lockAt (subtractRange held r) x = (if Covers r x then none else lockAt held x) ∧
      lockAt (setLockRange held r) x = (if Covers r x then some write else lockAt held x) ∧
      (Covers r x ↔ offset.toNat ≤ x ∧
        (length.toNat = maxUint64 ∨ x < offset.toNat + length.toNat))) ∧
    ((0 - 1 : UInt64) - offset).toNat = maxUint64 - offset.toNat ∧
    (r.toEOF = false → (offset + length).toNat = r.stop) ∧
    ∀ p ∈ subtractRange held r ++ setLockRange held r, p.start ≤ maxUint64 ∧ p.stop ≤ maxUint64 := by
  obtain ⟨hne, rfl⟩ := makeLockRange_nonEmpty hr
  obtain ⟨hmax, hsum, hcov⟩ := makeLockRange_exact hr
  have hsub := (subtractRange_spec h hne).1
  have hset := (setLockRange_spec h hne).1
  refine ⟨hsub, hset, fun x hx => ⟨lockAt_subtractRange h hne x, lockAt_setLockRange h hne x,
    hcov x hx⟩, hmax, hsum, fun p hp => ?_⟩
  have hp : NonEmpty p := by
    rcases List.mem_append.1 hp with hp | hp
    · exact hsub.nonEmpty p hp
    · exact hset.nonEmpty p hp
  refine ⟨hp.start_le, ?_⟩
  cases he : p.toEOF with
  | true => exact (hp.eof he).symm ▸ Nat.zero_le _
  | false => exact (hp.lt he).2

/-- A read lock and a write lock to the end, with a range that reaches into both. -/
theorem lock_algebra_between :
    lockAt (setLockRange [⟨0, 10, false, false⟩, ⟨20, 0, true, true⟩] ⟨5, 25, false, false⟩) 24 =
      some false := by
  have hcan : Canonical [⟨0, 10, false, false⟩, ⟨20, 0, true, true⟩] := by
    refine ⟨fun r hr => ?_, by simp [Apart, Below]⟩
    simp only [List.mem_cons, List.not_mem_nil, or_false] at hr
    rcases hr with rfl | rfl
    · exact ⟨by decide, by decide, by decide⟩
    · exact ⟨by decide, by decide, by decide⟩
  have hr : makeLockRange 5 20 false = .ok ⟨5, 25, false, false⟩ := by
    rfl
  exact ((lock_algebra hcan hr).2.2.1 24 (by decide)).2.1

end NfsLockRange
