import Mathlib

/-! # Range sets

The sorted lists of byte ranges a cached file keeps of what it holds. A list in normal form has
non-empty ranges that neither overlap nor touch; the operations are specified by the bytes they
cover. -/
namespace CacheRanges

/-- The half-open byte range from `pos` of length `size`. -/
structure Rng where
  pos : Int
  size : Int
  deriving DecidableEq

def Rng.stop (r : Rng) : Int := r.pos + r.size

abbrev RangeSet := List Rng

def Rng.Has (r : Rng) (x : Int) : Prop := r.pos ≤ x ∧ x < r.stop

instance (r : Rng) (x : Int) : Decidable (r.Has x) := inferInstanceAs (Decidable (_ ∧ _))

def Has (s : RangeSet) (x : Int) : Prop := ∃ e ∈ s, e.Has x

instance (s : RangeSet) (x : Int) : Decidable (Has s x) :=
  decidable_of_iff (s.any fun e => decide (e.Has x)) (by simp [Has])

structure Normal (s : RangeSet) : Prop where
  nonempty : ∀ e ∈ s, 0 < e.size
  apart : s.Pairwise fun a b => a.stop < b.pos

section Operations

/-- Adds a range, merging the entries it overlaps or touches. -/
def insert (s : RangeSet) (r : Rng) : RangeSet :=
  if r.size ≤ 0 then s
  else
    let left := s.takeWhile fun e => e.stop < r.pos
    let rest := s.dropWhile fun e => e.stop < r.pos
    let mid := rest.takeWhile fun e => e.pos ≤ r.stop
    let right := rest.dropWhile fun e => e.pos ≤ r.stop
    match mid.head?, mid.getLast? with
    | some first, some last =>
      let pos := min r.pos first.pos
      let stop := max r.stop last.stop
      left ++ ⟨pos, stop - pos⟩ :: right
    | _, _ => left ++ r :: right

/-- What is left of the entries from the first one that ends after the removed range begins. -/
def removeFrom (r : Rng) : List Rng → List Rng
  | [] => []
  | e :: es =>
    if e.pos ≥ r.stop then e :: es
    else
      (if e.pos < r.pos then [⟨e.pos, r.pos - e.pos⟩] else []) ++
        (if e.stop > r.stop then [⟨r.stop, e.stop - r.stop⟩] else []) ++ removeFrom r es

def remove (s : RangeSet) (r : Rng) : RangeSet :=
  if r.size ≤ 0 then s
  else
    s.takeWhile (fun e => e.stop ≤ r.pos) ++ removeFrom r (s.dropWhile fun e => e.stop ≤ r.pos)

def search (s : RangeSet) (pos : Int) : Option Rng := s.find? fun e => pos < e.stop

def present (s : RangeSet) (r : Rng) : Bool :=
  if r.size ≤ 0 then true
  else
    match search s r.pos with
    | none => false
    | some e => e.pos ≤ r.pos && r.stop ≤ e.stop

/-- The range without the part that is covered from its beginning on. -/
def findMissing (s : RangeSet) (r : Rng) : Rng :=
  if r.size ≤ 0 then ⟨r.pos, 0⟩
  else
    match search s r.pos with
    | none => r
    | some e =>
      if e.pos ≤ r.pos then
        if e.stop - r.pos ≥ r.size then ⟨r.stop, 0⟩
        else ⟨r.pos + (e.stop - r.pos), r.size - (e.stop - r.pos)⟩
      else r

/-- The uncovered parts from `pos` to `stop`; each round passes at least one entry. -/
def missingFrom (s : RangeSet) (stop : Int) : ℕ → Int → List Rng
  | 0, _ => []
  | fuel + 1, pos =>
    if pos < stop then
      let m := findMissing s ⟨pos, stop - pos⟩
      if m.size = 0 then []
      else
        let last := match search s m.pos with
          | some e => if e.pos < m.stop then e.pos else m.stop
          | none => m.stop
        ⟨m.pos, last - m.pos⟩ :: missingFrom s stop fuel last
    else []

def missingWithin (s : RangeSet) (r : Rng) : List Rng :=
  missingFrom s r.stop (s.length + 1) r.pos

def size (s : RangeSet) : Int := (s.map Rng.size).sum

end Operations

variable {e : Rng} (x : Int)

section Normality

variable {s : RangeSet} {r : Rng}

theorem normal_nil : Normal [] := ⟨by simp, List.Pairwise.nil⟩

theorem normal_cons : Normal (e :: s) ↔ 0 < e.size ∧ (∀ b ∈ s, e.stop < b.pos) ∧ Normal s := by
  constructor
  · intro h
    have hp := List.pairwise_cons.1 h.apart
    exact ⟨h.nonempty e List.mem_cons_self, hp.1,
      fun b hb => h.nonempty b (List.mem_cons_of_mem _ hb), hp.2⟩
  · rintro ⟨hpos, hlt, hs⟩
    refine ⟨fun b hb => ?_, List.pairwise_cons.2 ⟨hlt, hs.apart⟩⟩
    rcases List.mem_cons.1 hb with rfl | hb
    · exact hpos
    · exact hs.nonempty b hb

theorem normal_append {t} :
    Normal (s ++ t) ↔ Normal s ∧ Normal t ∧ ∀ a ∈ s, ∀ b ∈ t, a.stop < b.pos := by
  constructor
  · intro h
    obtain ⟨hs, ht, hst⟩ := List.pairwise_append.1 h.apart
    exact ⟨⟨fun e he => h.nonempty e (List.mem_append_left _ he), hs⟩,
      ⟨fun e he => h.nonempty e (List.mem_append_right _ he), ht⟩, hst⟩
  · rintro ⟨hs, ht, hst⟩
    refine ⟨fun e he => ?_, List.pairwise_append.2 ⟨hs.apart, ht.apart, hst⟩⟩
    rcases List.mem_append.1 he with he | he
    · exact hs.nonempty e he
    · exact ht.nonempty e he

@[simp] theorem has_nil : ¬ Has [] x := by simp [Has]

@[simp] theorem has_cons {x} : Has (e :: s) x ↔ e.Has x ∨ Has s x := by
  simp [Has]

@[simp] theorem has_append {t x} : Has (s ++ t) x ↔ Has s x ∨ Has t x := by
  simp [Has, or_and_right, exists_or]

theorem le_stop_of_mem_dropWhile (h : Normal s) (a : Int) :
    ∀ e ∈ s.dropWhile (fun e => e.stop < a), a ≤ e.stop := by
  induction s with
  | nil => simp
  | cons b s ih =>
    obtain ⟨hb, hlt, hs⟩ := normal_cons.1 h
    by_cases hba : b.stop < a
    · rw [List.dropWhile_cons_of_pos (by simpa using hba)]
      exact ih hs
    rw [List.dropWhile_cons_of_neg (by simpa using hba)]
    intro e he
    rcases List.mem_cons.1 he with rfl | he
    · omega
    have h₁ := hlt e he
    have h₂ := hs.nonempty e he
    simp only [Rng.stop] at h₁ hba ⊢
    omega

theorem lt_pos_of_mem_dropWhile (h : Normal s) (a : Int) :
    ∀ e ∈ s.dropWhile (fun e => e.pos ≤ a), a < e.pos := by
  induction s with
  | nil => simp
  | cons b s ih =>
    obtain ⟨hb, hlt, hs⟩ := normal_cons.1 h
    by_cases hba : b.pos ≤ a
    · rw [List.dropWhile_cons_of_pos (by simpa using hba)]
      exact ih hs
    rw [List.dropWhile_cons_of_neg (by simpa using hba)]
    intro e he
    rcases List.mem_cons.1 he with rfl | he
    · omega
    have h₁ := hlt e he
    simp only [Rng.stop] at h₁
    omega

theorem Normal.takeWhile_dropWhile (h : Normal s) (p : Rng → Bool) :
    Normal (s.takeWhile p) ∧ Normal (s.dropWhile p) ∧
      ∀ a ∈ s.takeWhile p, ∀ b ∈ s.dropWhile p, a.stop < b.pos := by
  rw [← normal_append, List.takeWhile_append_dropWhile]
  exact h

end Normality

section Inserting

variable {s : RangeSet} {r : Rng}

theorem has_merged {mid first last} (hm : Normal mid)
    (hf : mid.head? = some first) (hl : mid.getLast? = some last)
    (hleft : ∀ e ∈ mid, r.pos ≤ e.stop) (hright : ∀ e ∈ mid, e.pos ≤ r.stop) (x : Int) :
    (min r.pos first.pos ≤ x ∧ x < max r.stop last.stop) ↔ Has mid x ∨ r.Has x := by
  have hfm : first ∈ mid := List.mem_of_mem_head? hf
  have hlm : last ∈ mid := List.mem_of_getLast? hl
  have hbounds : ∀ e ∈ mid, first.pos ≤ e.pos ∧ e.stop ≤ last.stop := by
    intro e he
    constructor
    · obtain ⟨tail, rfl⟩ := List.head?_eq_some_iff.1 hf
      obtain ⟨hpos, hlt, -⟩ := normal_cons.1 hm
      rcases List.mem_cons.1 he with rfl | he
      · exact le_refl _
      have := hlt e he
      simp only [Rng.stop] at this
      omega
    obtain ⟨init, rfl⟩ := List.getLast?_eq_some_iff.1 hl
    obtain ⟨-, hlast, hlt⟩ := normal_append.1 hm
    rcases List.mem_append.1 he with he | he
    · have h₁ := hlt e he last (by simp)
      have h₂ := hlast.nonempty last (by simp)
      simp only [Rng.stop] at h₁ ⊢
      omega
    · rw [List.mem_singleton.1 he]
  constructor
  · rintro ⟨hlo, hhi⟩
    by_cases hx : x < r.pos
    · have := hleft first hfm
      exact .inl ⟨first, hfm, by omega, by omega⟩
    by_cases hx' : x < r.stop
    · exact .inr ⟨by omega, hx'⟩
    · have := hright last hlm
      exact .inl ⟨last, hlm, by omega, by omega⟩
  · rintro (⟨e, he, hlo, hhi⟩ | ⟨hlo, hhi⟩)
    · have := hbounds e he
      omega
    · omega

theorem merge_spec {left mid right} (hm : Normal mid) (hr : 0 < r.size)
    (hlm : ∀ a ∈ left, ∀ b ∈ mid, a.stop < b.pos) (hmr : ∀ a ∈ mid, ∀ b ∈ right, a.stop < b.pos)
    (hl : ∀ e ∈ left, e.stop < r.pos) (hge : ∀ e ∈ mid, r.pos ≤ e.stop)
    (hle : ∀ e ∈ mid, e.pos ≤ r.stop) (hright : ∀ e ∈ right, r.stop < e.pos) :
    ∃ pos stop, (match mid.head?, mid.getLast? with
        | some first, some last =>
          left ++ ⟨min r.pos first.pos, max r.stop last.stop - min r.pos first.pos⟩ :: right
        | _, _ => left ++ r :: right) = left ++ ⟨pos, stop - pos⟩ :: right ∧ pos < stop ∧
      (∀ x, (pos ≤ x ∧ x < stop) ↔ Has mid x ∨ r.Has x) ∧
      (∀ e ∈ left, e.stop < pos) ∧ ∀ e ∈ right, stop < e.pos := by
  have hrstop : r.pos < r.stop := by
    simp only [Rng.stop]
    omega
  cases mid with
  | nil =>
    refine ⟨r.pos, r.stop, ?_, hrstop, fun x => ?_, hl, hright⟩
    · have hsize : r.stop - r.pos = r.size := by
        simp only [Rng.stop]
        omega
      rw [hsize]
      rfl
    · simp [Rng.Has]
  | cons first rest =>
    have hfm : first ∈ first :: rest := List.mem_cons_self
    obtain ⟨last, hlast⟩ : ∃ last, (first :: rest).getLast? = some last :=
      ⟨_, List.getLast?_eq_some_getLast (by simp)⟩
    have hlmem : last ∈ first :: rest := List.mem_of_getLast? hlast
    refine ⟨min r.pos first.pos, max r.stop last.stop, ?_, ?_, ?_, fun e he => ?_, fun e he => ?_⟩
    · rw [hlast]
      rfl
    · omega
    · exact has_merged hm rfl hlast hge hle
    · have h₁ := hl e he
      have h₂ := hlm e he first hfm
      omega
    · have h₁ := hright e he
      have h₂ := hmr last hlmem e he
      omega

theorem insert_split (h : Normal s) (hr : 0 < r.size) :
    ∃ left mid right pos stop, s = left ++ mid ++ right ∧
      insert s r = left ++ ⟨pos, stop - pos⟩ :: right ∧ pos < stop ∧
      (∀ x, (pos ≤ x ∧ x < stop) ↔ Has mid x ∨ r.Has x) ∧
      (∀ e ∈ left, e.stop < pos) ∧ ∀ e ∈ right, stop < e.pos := by
  obtain ⟨hnl, hnr, hlr⟩ := h.takeWhile_dropWhile fun e => e.stop < r.pos
  obtain ⟨hnm, hnright, hmr⟩ := hnr.takeWhile_dropWhile fun e => e.pos ≤ r.stop
  have hge := le_stop_of_mem_dropWhile h r.pos
  have hright := lt_pos_of_mem_dropWhile hnr r.stop
  have hleft : ∀ e ∈ s.takeWhile (fun e => e.stop < r.pos), e.stop < r.pos :=
    fun e he => by simpa using List.mem_takeWhile_imp he
  have hmid : ∀ e ∈ (s.dropWhile fun e => e.stop < r.pos).takeWhile
      (fun e => e.pos ≤ r.stop), e.pos ≤ r.stop :=
    fun e he => by simpa using List.mem_takeWhile_imp he
  obtain ⟨pos, stop, he, hlt, hhas, hl, hg⟩ := merge_spec hnm hr
    (fun a ha b hb => hlr a ha b ((List.takeWhile_prefix _).subset hb)) hmr hleft
    (fun e he => hge e ((List.takeWhile_prefix _).subset he)) hmid hright
  refine ⟨_, _, _, pos, stop, ?_, ?_, hlt, hhas, hl, hg⟩
  · rw [List.append_assoc, List.takeWhile_append_dropWhile, List.takeWhile_append_dropWhile]
  · rw [← he]
    simp only [insert, if_neg (not_le.2 hr)]

theorem has_insert (h : Normal s) (x : Int) : Has (insert s r) x ↔ Has s x ∨ r.Has x := by
  by_cases hr : r.size ≤ 0
  · have hno : ¬ r.Has x := by
      simp only [Rng.Has, Rng.stop]
      omega
    simp [insert, hr, hno]
  obtain ⟨left, mid, right, pos, stop, hs, hi, -, hhas, -, -⟩ := insert_split h (not_le.1 hr)
  have hx : (⟨pos, stop - pos⟩ : Rng).Has x ↔ Has mid x ∨ r.Has x := by
    rw [← hhas]
    simp only [Rng.Has, Rng.stop]
    constructor <;> rintro ⟨h₁, h₂⟩ <;> exact ⟨h₁, by omega⟩
  rw [hi, hs]
  simp only [has_append, has_cons, hx]
  tauto

theorem Normal.insert (h : Normal s) (r : Rng) : Normal (insert s r) := by
  by_cases hr : r.size ≤ 0
  · simpa [CacheRanges.insert, hr] using h
  obtain ⟨left, mid, right, pos, stop, hs, hi, hlt, -, hl, hg⟩ := insert_split h (not_le.1 hr)
  rw [hs, List.append_assoc] at h
  obtain ⟨hnl, hmr, hlr⟩ := normal_append.1 h
  obtain ⟨-, hnr, -⟩ := normal_append.1 hmr
  rw [hi]
  refine normal_append.2 ⟨hnl, normal_cons.2 ⟨by simpa using hlt, fun e he => ?_, hnr⟩,
    fun a ha b hb => ?_⟩
  · have := hg e he
    simp only [Rng.stop]
    omega
  · rcases List.mem_cons.1 hb with rfl | hb
    · exact hl a ha
    · exact hlr a ha b (List.mem_append_right _ hb)

end Inserting

section Removing

variable {s : RangeSet} {r : Rng}

/-- What is left of one entry: the part before the removed range and the part after it. -/
def pieces (r e : Rng) : List Rng :=
  (if e.pos < r.pos then [⟨e.pos, r.pos - e.pos⟩] else []) ++
    if e.stop > r.stop then [⟨r.stop, e.stop - r.stop⟩] else []

theorem has_pieces (h₁ : e.pos < r.stop) (h₂ : r.pos < e.stop) (x : Int) :
    Has (pieces r e) x ↔ e.Has x ∧ ¬ r.Has x := by
  simp only [Rng.stop] at h₁ h₂
  by_cases hp : e.pos < r.pos <;> by_cases hs : e.stop > r.stop <;>
    simp only [Rng.stop] at hs <;> simp [pieces, Rng.Has, Rng.stop, hp, hs] <;> omega

theorem normal_pieces (hr : 0 < r.size) : Normal (pieces r e) := by
  unfold pieces
  refine normal_append.2 ⟨?_, ?_, ?_⟩
  · split
    · exact normal_cons.2 ⟨by simpa using by omega, by simp, normal_nil⟩
    · exact normal_nil
  · split
    · exact normal_cons.2 ⟨by simpa using by omega, by simp, normal_nil⟩
    · exact normal_nil
  intro a ha b hb
  split at ha
  · split at hb
    · rw [List.mem_singleton.1 ha, List.mem_singleton.1 hb]
      simp only [Rng.stop]
      omega
    · cases hb
  · cases ha

theorem pieces_bounds {p} (h₁ : e.pos < r.stop) (h₂ : r.pos < e.stop)
    (hp : p ∈ pieces r e) : e.pos ≤ p.pos ∧ p.stop ≤ e.stop := by
  unfold pieces at hp
  rcases List.mem_append.1 hp with hp | hp
  · split at hp
    · rw [List.mem_singleton.1 hp]
      simp only [Rng.stop] at h₂ ⊢
      omega
    · cases hp
  split at hp
  · rw [List.mem_singleton.1 hp]
    simp only [Rng.stop] at h₁ ⊢
    omega
  · cases hp

theorem removeFrom_spec (es : List Rng) (h : Normal es) (hr : 0 < r.size)
    (hlo : ∀ e ∈ es, r.pos < e.stop) :
    Normal (removeFrom r es) ∧ (∀ x, Has (removeFrom r es) x ↔ Has es x ∧ ¬ r.Has x) ∧
      ∀ a, (∀ e ∈ es, a < e.pos) → ∀ p ∈ removeFrom r es, a < p.pos := by
  induction es with
  | nil => exact ⟨normal_nil, by simp [removeFrom], by simp [removeFrom]⟩
  | cons e es ih =>
    obtain ⟨hpos, hlt, hes⟩ := normal_cons.1 h
    by_cases hover : e.pos ≥ r.stop
    · rw [removeFrom, if_pos hover]
      refine ⟨h, fun x => ⟨fun hx => ⟨hx, ?_⟩, And.left⟩, fun a ha => ha⟩
      rintro ⟨-, hxr⟩
      obtain ⟨b, hb, hxb, -⟩ := hx
      rcases List.mem_cons.1 hb with rfl | hb
      · omega
      have hbe := hlt b hb
      simp only [Rng.stop] at hbe
      omega
    have hlow : r.pos < e.stop := hlo e List.mem_cons_self
    obtain ⟨hn, hhas, hbound⟩ := ih hes fun b hb => hlo b (List.mem_cons_of_mem _ hb)
    have hcons : removeFrom r (e :: es) = pieces r e ++ removeFrom r es := by
      rw [removeFrom, if_neg hover]
      rfl
    rw [hcons]
    refine ⟨normal_append.2 ⟨normal_pieces hr, hn, fun p hp b hb => ?_⟩, fun x => ?_,
      fun a ha p hp => ?_⟩
    · have h₁ := (pieces_bounds (not_le.1 hover) hlow hp).2
      have h₂ := hbound e.stop hlt b hb
      omega
    · rw [has_append, has_pieces (not_le.1 hover) hlow, hhas, has_cons]
      tauto
    · rcases List.mem_append.1 hp with hp | hp
      · have h₁ := (pieces_bounds (not_le.1 hover) hlow hp).1
        have h₂ := ha e List.mem_cons_self
        omega
      · exact hbound a (fun b hb => ha b (List.mem_cons_of_mem _ hb)) p hp

theorem lt_stop_of_mem_dropWhile (h : Normal s) (a : Int) :
    ∀ e ∈ s.dropWhile (fun e => e.stop ≤ a), a < e.stop := by
  have hle := le_stop_of_mem_dropWhile h (a + 1)
  have hsame : (fun e : Rng => decide (e.stop ≤ a)) = fun e => decide (e.stop < a + 1) := by
    funext e
    simp only [decide_eq_decide]
    omega
  intro e he
  rw [hsame] at he
  have := hle e he
  omega

theorem remove_spec (h : Normal s) (r : Rng) :
    Normal (remove s r) ∧ ∀ x, Has (remove s r) x ↔ Has s x ∧ ¬ r.Has x := by
  by_cases hr : r.size ≤ 0
  · have hno : ∀ x, ¬ r.Has x := by
      intro x
      simp only [Rng.Has, Rng.stop]
      omega
    simpa [remove, hr, hno] using h
  obtain ⟨hnl, hnr, hlr⟩ := h.takeWhile_dropWhile fun e => e.stop ≤ r.pos
  have hleft : ∀ e ∈ s.takeWhile (fun e => e.stop ≤ r.pos), e.stop ≤ r.pos :=
    fun e he => by simpa using List.mem_takeWhile_imp he
  obtain ⟨hn, hhas, hbound⟩ := removeFrom_spec _ hnr (not_le.1 hr)
    (lt_stop_of_mem_dropWhile h r.pos)
  rw [remove, if_neg hr]
  refine ⟨normal_append.2 ⟨hnl, hn, fun a ha b hb => ?_⟩, fun x => ?_⟩
  · exact hbound a.stop (fun e he => hlr a ha e he) b hb
  rw [has_append, hhas]
  have hout : Has (s.takeWhile fun e => e.stop ≤ r.pos) x → ¬ r.Has x := by
    rintro ⟨e, he, -, hx⟩ ⟨hxr, -⟩
    have := hleft e he
    omega
  have hs : Has s x ↔ Has (s.takeWhile fun e => e.stop ≤ r.pos) x ∨
      Has (s.dropWhile fun e => e.stop ≤ r.pos) x := by
    rw [← has_append, List.takeWhile_append_dropWhile]
  rw [hs]
  tauto

theorem has_remove (h : Normal s) (r : Rng) (x : Int) : Has (remove s r) x ↔ Has s x ∧ ¬ r.Has x :=
  (remove_spec h r).2 x

theorem Normal.remove (h : Normal s) (r : Rng) : Normal (remove s r) := (remove_spec h r).1

end Removing

section Searching

variable {s : RangeSet} {r : Rng}

variable {pos : Int}

theorem search_some (h : Normal s) (he : search s pos = some e) :
    e ∈ s ∧ pos < e.stop ∧ ∀ x, pos ≤ x → x < e.pos → ¬ Has s x := by
  have hmem := List.mem_of_find?_eq_some he
  have hstop : pos < e.stop := by simpa using List.find?_some he
  refine ⟨hmem, hstop, ?_⟩
  rintro x hx hxe ⟨b, hb, hxb, hxs⟩
  obtain ⟨left, right, hs, hleft⟩ := List.find?_eq_some_iff_append.1 he |>.2
  rw [hs] at h hb
  obtain ⟨-, hr, -⟩ := normal_append.1 h
  obtain ⟨hpos, hlt, -⟩ := normal_cons.1 hr
  rcases List.mem_append.1 hb with hb | hb
  · have hbs := hleft b hb
    simp only [Bool.not_eq_eq_eq_not, Bool.not_true, decide_eq_false_iff_not] at hbs
    omega
  rcases List.mem_cons.1 hb with rfl | hb
  · omega
  have hbe := hlt b hb
  simp only [Rng.stop] at hbe hstop
  omega

theorem search_none (hn : search s pos = none) (x : Int) (hx : pos ≤ x) : ¬ Has s x := by
  rintro ⟨b, hb, hxb, hxs⟩
  have hbs := List.find?_eq_none.1 hn b hb
  simp only [decide_eq_true_eq] at hbs
  omega

theorem Normal.apart_of_ne (h : Normal s) {a b} (ha : a ∈ s) (hb : b ∈ s) (hne : a ≠ b) :
    a.stop < b.pos ∨ b.stop < a.pos := by
  induction s with
  | nil => cases ha
  | cons e s ih =>
    obtain ⟨-, hlt, hs⟩ := normal_cons.1 h
    rcases List.mem_cons.1 ha with hae | ha'
    · rcases List.mem_cons.1 hb with hbe | hb'
      · exact absurd (hae.trans hbe.symm) hne
      · exact .inl (hae ▸ hlt b hb')
    rcases List.mem_cons.1 hb with hbe | hb'
    · exact .inr (hbe ▸ hlt a ha')
    · exact ih hs ha' hb'

theorem not_has_stop (h : Normal s) (he : e ∈ s) : ¬ Has s e.stop := by
  rintro ⟨b, hb, hlo, hhi⟩
  have hpos := h.nonempty e he
  have hne : b ≠ e := by
    rintro rfl
    omega
  have hstop : e.pos < e.stop := by
    simp only [Rng.stop]
    omega
  rcases h.apart_of_ne hb he hne with hlt | hlt
  · omega
  · omega

theorem present_iff (h : Normal s) (r : Rng) : present s r = true ↔ ∀ x, r.Has x → Has s x := by
  by_cases hr : r.size ≤ 0
  · refine ⟨fun _ x hx => ?_, fun _ => by simp [present, hr]⟩
    simp only [Rng.Has, Rng.stop] at hx
    omega
  have hself : r.Has r.pos := by
    simp only [Rng.Has, Rng.stop]
    omega
  rw [present, if_neg hr]
  cases he : search s r.pos with
  | none =>
    refine ⟨by simp, fun hall => ?_⟩
    exact absurd (hall r.pos hself) (search_none he r.pos (le_refl _))
  | some e =>
    obtain ⟨hmem, hstop, hgap⟩ := search_some h he
    simp only [Bool.and_eq_true, decide_eq_true_eq]
    constructor
    · rintro ⟨hlo, hhi⟩ x ⟨hx, hx'⟩
      exact ⟨e, hmem, by omega, by omega⟩
    intro hall
    have hlo : e.pos ≤ r.pos := by
      by_contra hgt
      exact hgap r.pos (le_refl _) (not_le.1 hgt) (hall r.pos hself)
    refine ⟨hlo, ?_⟩
    by_contra hlt
    exact not_has_stop h hmem (hall e.stop ⟨by omega, by omega⟩)

def ahead (s : RangeSet) (pos : Int) : ℕ := s.countP fun e => pos < e.stop

theorem ahead_le (s : RangeSet) {p q} (h : p ≤ q) : ahead s q ≤ ahead s p := by
  apply List.countP_mono_left
  intro e _ he
  simp only [decide_eq_true_eq] at he ⊢
  omega

theorem ahead_lt {p q} (he : e ∈ s) (hp : p < e.stop) (hq : e.stop ≤ q) :
    ahead s q < ahead s p := by
  obtain ⟨left, right, rfl⟩ := List.append_of_mem he
  have hl := ahead_le left (p := p) (q := q) (by omega)
  have hr := ahead_le right (p := p) (q := q) (by omega)
  simp only [ahead, List.countP_append, List.countP_cons] at hl hr ⊢
  simp only [decide_eq_true_eq, hp, not_lt.2 hq, if_true, if_false]
  omega

/-- The first byte that is missing; before it everything is covered. -/
structure FirstMissing (s : RangeSet) (r m : Rng) : Prop where
  stop_eq : m.stop = r.stop
  pos_le : r.pos ≤ m.pos
  covered : ∀ x, r.pos ≤ x → x < m.pos → Has s x
  missing : m.size ≠ 0 → m.pos < m.stop ∧ ¬ Has s m.pos
  passed : Has s r.pos → m.size ≠ 0 → ∃ e ∈ s, r.pos < e.stop ∧ m.pos = e.stop

theorem findMissing_spec (h : Normal s) (hr : 0 < r.size) : FirstMissing s r (findMissing s r) := by
  have hlt : r.pos < r.stop := by
    simp only [Rng.stop]
    omega
  rw [findMissing, if_neg (not_le.2 hr)]
  cases he : search s r.pos with
  | none =>
    have hno := search_none he r.pos (le_refl _)
    exact ⟨rfl, le_refl _, fun x hx hx' => absurd hx' (not_lt.2 hx), fun _ => ⟨hlt, hno⟩,
      fun hhas => absurd hhas hno⟩
  | some e =>
    obtain ⟨hmem, hstop, hgap⟩ := search_some h he
    by_cases hpos : e.pos ≤ r.pos
    · simp only [if_pos hpos]
      have hcov : ∀ x, r.pos ≤ x → x < e.stop → Has s x :=
        fun x hx hx' => ⟨e, hmem, by omega, hx'⟩
      by_cases hall : e.stop - r.pos ≥ r.size
      · rw [if_pos hall]
        refine ⟨by simp [Rng.stop], le_of_lt hlt, fun x hx hx' => hcov x hx ?_,
          fun hne => absurd rfl hne, fun _ hne => absurd rfl hne⟩
        simp only [Rng.stop] at hx' hall ⊢
        omega
      rw [if_neg hall]
      have hm : r.pos + (e.stop - r.pos) = e.stop := by omega
      rw [hm]
      refine ⟨?_, le_of_lt hstop, hcov, fun _ => ⟨?_, not_has_stop h hmem⟩,
        fun _ _ => ⟨e, hmem, hstop, rfl⟩⟩
      · simp only [Rng.stop]
        omega
      · simp only [Rng.stop] at hall ⊢
        omega
    · simp only [if_neg hpos]
      have hno := hgap r.pos (le_refl _) (not_le.1 hpos)
      exact ⟨rfl, le_refl _, fun x hx hx' => absurd hx' (not_lt.2 hx), fun _ => ⟨hlt, hno⟩,
        fun hhas => absurd hhas hno⟩

/-- The end of a missing run: the next entry, or the end of the range. -/
def runEnd (s : RangeSet) (m : Rng) : Int :=
  match search s m.pos with
  | some e => if e.pos < m.stop then e.pos else m.stop
  | none => m.stop

theorem runEnd_spec (h : Normal s) {m} (hlt : m.pos < m.stop) (hno : ¬ Has s m.pos) :
    m.pos < runEnd s m ∧ runEnd s m ≤ m.stop ∧
      (∀ x, m.pos ≤ x → x < runEnd s m → ¬ Has s x) ∧
      (runEnd s m = m.stop ∨ Has s (runEnd s m)) := by
  unfold runEnd
  cases he : search s m.pos with
  | none => exact ⟨hlt, le_refl _, fun x hx _ => search_none he x hx, .inl rfl⟩
  | some e =>
    obtain ⟨hmem, hstop, hgap⟩ := search_some h he
    have hpos : m.pos < e.pos := by
      by_contra hle
      exact hno ⟨e, hmem, by omega, hstop⟩
    have hself : e.Has e.pos := by
      have := h.nonempty e hmem
      simp only [Rng.Has, Rng.stop]
      omega
    by_cases hin : e.pos < m.stop
    · simp only [if_pos hin]
      exact ⟨hpos, le_of_lt hin, hgap, .inr ⟨e, hmem, hself⟩⟩
    · simp only [if_neg hin, true_or, and_true]
      exact ⟨hlt, le_refl _, fun x hx hx' => hgap x hx (by omega)⟩

theorem missingFrom_stop (s : RangeSet) {stop} (h : stop ≤ pos) (fuel : ℕ) :
    missingFrom s stop fuel pos = [] := by
  cases fuel with
  | zero => rfl
  | succ fuel => simp [missingFrom, not_lt.2 h]

theorem missingFrom_succ (s : RangeSet) {stop} (h : pos < stop) (fuel : ℕ) :
    missingFrom s stop (fuel + 1) pos =
      if (findMissing s ⟨pos, stop - pos⟩).size = 0 then []
      else
        ⟨(findMissing s ⟨pos, stop - pos⟩).pos,
          runEnd s (findMissing s ⟨pos, stop - pos⟩) - (findMissing s ⟨pos, stop - pos⟩).pos⟩ ::
          missingFrom s stop fuel (runEnd s (findMissing s ⟨pos, stop - pos⟩)) := by
  rw [missingFrom, if_pos h]
  rfl

/-- A round is needed for each entry ahead, and one more outside of an entry. -/
def roundsLeft (s : RangeSet) (pos : Int) : ℕ := ahead s pos + if Has s pos then 0 else 1

theorem roundsLeft_pos (s : RangeSet) (pos : Int) : 0 < roundsLeft s pos := by
  unfold roundsLeft
  split
  · rename_i hhas
    obtain ⟨e, he, -, hstop⟩ := hhas
    have := ahead_lt he hstop (le_refl _)
    omega
  · omega

/-- What one round of the search for missing parts finds. -/
structure Round (s : RangeSet) (pos stop : Int) (m : Rng) : Prop where
  stop_eq : m.stop = stop
  pos_le : pos ≤ m.pos
  covered : ∀ x, pos ≤ x → x < m.pos → Has s x
  missing : ¬ Has s m.pos
  lt_runEnd : m.pos < runEnd s m
  runEnd_le : runEnd s m ≤ stop
  run : ∀ x, m.pos ≤ x → x < runEnd s m → ¬ Has s x
  next : runEnd s m = stop ∨ Has s (runEnd s m) ∧ roundsLeft s (runEnd s m) < roundsLeft s pos

theorem round_spec (h : Normal s) {stop} (hlt : pos < stop)
    (hz : (findMissing s ⟨pos, stop - pos⟩).size ≠ 0) :
    Round s pos stop (findMissing s ⟨pos, stop - pos⟩) := by
  have hm := findMissing_spec (r := ⟨pos, stop - pos⟩) h (by simpa using by omega)
  have hrstop : (⟨pos, stop - pos⟩ : Rng).stop = stop := by
    simp only [Rng.stop]
    omega
  generalize findMissing s ⟨pos, stop - pos⟩ = m at hm hz ⊢
  obtain ⟨hstop, hpos, hcov, hmiss, hpass⟩ := hm
  rw [hrstop] at hstop
  simp only at hpos hcov hpass
  obtain ⟨hmlt, hmno⟩ := hmiss hz
  obtain ⟨hend, hle, hrun, hlast⟩ := runEnd_spec h hmlt hmno
  rw [hstop] at hle hlast
  refine ⟨hstop, hpos, hcov, hmno, hend, hle, hrun, hlast.imp_right fun hlast => ⟨hlast, ?_⟩⟩
  rw [roundsLeft, roundsLeft, if_pos hlast]
  by_cases hhas : Has s pos
  · obtain ⟨e, he, hpe, hme⟩ := hpass hhas hz
    have := ahead_lt he hpe (q := runEnd s m) (by omega)
    rw [if_pos hhas]
    omega
  have := ahead_le s (p := pos) (q := runEnd s m) (by omega)
  rw [if_neg hhas]
  omega

theorem covered_of_size_eq_zero (h : Normal s) {stop} (hlt : pos < stop)
    (hz : (findMissing s ⟨pos, stop - pos⟩).size = 0) {x} (hx : pos ≤ x) (hx' : x < stop) :
    Has s x := by
  have hm := findMissing_spec (r := ⟨pos, stop - pos⟩) h (by simpa using by omega)
  refine hm.covered x hx ?_
  have hstop := hm.stop_eq
  simp only [Rng.stop] at hstop
  omega

theorem has_missingFrom (h : Normal s) (stop : Int) (fuel : ℕ) (pos : Int)
    (hf : roundsLeft s pos ≤ fuel) (x : Int) :
    Has (missingFrom s stop fuel pos) x ↔ (pos ≤ x ∧ x < stop) ∧ ¬ Has s x := by
  induction fuel generalizing pos with
  | zero =>
    have := roundsLeft_pos s pos
    omega
  | succ fuel ih =>
    by_cases hlt : pos < stop
    · rw [missingFrom_succ s hlt]
      by_cases hz : (findMissing s ⟨pos, stop - pos⟩).size = 0
      · rw [if_pos hz]
        refine ⟨fun hx => absurd hx (has_nil x), ?_⟩
        rintro ⟨⟨hx, hx'⟩, hno⟩
        exact absurd (covered_of_size_eq_zero h hlt hz hx hx') hno
      have hround := round_spec h hlt hz
      rw [if_neg hz, has_cons]
      generalize findMissing s ⟨pos, stop - pos⟩ = m at hround ⊢
      have hend := hround.lt_runEnd
      have hle := hround.runEnd_le
      have hpos := hround.pos_le
      have hself : (⟨m.pos, runEnd s m - m.pos⟩ : Rng).Has x ↔
          m.pos ≤ x ∧ x < runEnd s m := by
        simp only [Rng.Has, Rng.stop]
        constructor <;> rintro ⟨h₁, h₂⟩ <;> exact ⟨h₁, by omega⟩
      have hrest : Has (missingFrom s stop fuel (runEnd s m)) x ↔
          (runEnd s m ≤ x ∧ x < stop) ∧ ¬ Has s x := by
        rcases hround.next with hlast | ⟨-, hless⟩
        · rw [hlast, missingFrom_stop s (le_refl _)]
          refine ⟨fun hx => absurd hx (has_nil x), fun hx => by omega⟩
        · exact ih _ (by omega)
      rw [hself, hrest]
      constructor
      · rintro (⟨h₁, h₂⟩ | ⟨⟨h₁, h₂⟩, hno⟩)
        · exact ⟨⟨by omega, by omega⟩, hround.run x h₁ h₂⟩
        · exact ⟨⟨by omega, h₂⟩, hno⟩
      rintro ⟨⟨h₁, h₂⟩, hno⟩
      have hmx : m.pos ≤ x := by
        by_contra hlt'
        exact hno (hround.covered x h₁ (by omega))
      by_cases hx : x < runEnd s m
      · exact .inl ⟨hmx, hx⟩
      · exact .inr ⟨⟨by omega, h₂⟩, hno⟩
    · rw [missingFrom_stop s (by omega)]
      refine ⟨fun hx => absurd hx (has_nil x), fun hx => by omega⟩

theorem roundsLeft_le (s : RangeSet) (pos : Int) : roundsLeft s pos ≤ s.length + 1 := by
  have hle : ahead s pos ≤ s.length := List.countP_le_length
  unfold roundsLeft
  split <;> omega

theorem has_missingWithin (h : Normal s) (r : Rng) (x : Int) :
    Has (missingWithin s r) x ↔ r.Has x ∧ ¬ Has s x := by
  exact has_missingFrom h _ _ _ (roundsLeft_le s r.pos) x

theorem missingFrom_spec (h : Normal s) (stop : Int) (fuel : ℕ) (pos : Int) :
    (∀ m ∈ missingFrom s stop fuel pos,
      pos ≤ m.pos ∧ m.pos < m.stop ∧ m.stop ≤ stop ∧ ¬ Has s m.pos) ∧
    Normal (missingFrom s stop fuel pos) := by
  induction fuel generalizing pos with
  | zero => exact ⟨nofun, normal_nil⟩
  | succ fuel ih =>
    by_cases hlt : pos < stop
    · rw [missingFrom_succ s hlt]
      by_cases hz : (findMissing s ⟨pos, stop - pos⟩).size = 0
      · rw [if_pos hz]
        exact ⟨nofun, normal_nil⟩
      have hround := round_spec h hlt hz
      rw [if_neg hz]
      generalize findMissing s ⟨pos, stop - pos⟩ = m at hround ⊢
      have hend := hround.lt_runEnd
      have hle := hround.runEnd_le
      have hpos := hround.pos_le
      obtain ⟨hin, hnormal⟩ := ih (runEnd s m)
      have hstop : (⟨m.pos, runEnd s m - m.pos⟩ : Rng).stop = runEnd s m := by
        simp only [Rng.stop]
        omega
      constructor
      · intro b hb
        rcases List.mem_cons.1 hb with rfl | hb
        · rw [hstop]
          exact ⟨hpos, hend, hle, hround.missing⟩
        · have := hin b hb
          exact ⟨by omega, this.2⟩
      refine normal_cons.2 ⟨by simpa using hend, fun b hb => ?_, hnormal⟩
      obtain ⟨hb₁, hb₂, hb₃, hb₄⟩ := hin b hb
      rw [hstop]
      -- The next part begins after the entry that ends this one.
      rcases hround.next with hlast | ⟨hhas, -⟩
      · omega
      · exact lt_of_le_of_ne hb₁ fun he => hb₄ (he ▸ hhas)
    · rw [missingFrom_stop s (by omega)]
      exact ⟨nofun, normal_nil⟩

theorem missingWithin_bounds (h : Normal s) {m} (hm : m ∈ missingWithin s r) :
    r.pos ≤ m.pos ∧ m.pos < m.stop ∧ m.stop ≤ r.stop := by
  obtain ⟨h₁, h₂, h₃, -⟩ := (missingFrom_spec h r.stop _ r.pos).1 m hm
  exact ⟨h₁, h₂, h₃⟩

end Searching

section Counting

variable {s : RangeSet}

def Rng.bytes (r : Rng) : Finset Int := (Finset.range r.size.toNat).image fun k : ℕ => r.pos + k

theorem Rng.mem_bytes (r : Rng) (x : Int) : x ∈ r.bytes ↔ r.Has x := by
  simp only [Rng.bytes, Finset.mem_image, Finset.mem_range, Rng.Has, Rng.stop]
  constructor
  · rintro ⟨k, hk, rfl⟩
    omega
  · intro hx
    exact ⟨(x - r.pos).toNat, by omega, by omega⟩

theorem Rng.card_bytes (r : Rng) : r.bytes.card = r.size.toNat := by
  rw [Rng.bytes, Finset.card_image_of_injective, Finset.card_range]
  intro j k hjk
  simpa using hjk

def bytes : RangeSet → Finset Int
  | [] => ∅
  | e :: s => e.bytes ∪ bytes s

theorem mem_bytes (s : RangeSet) (x : Int) : x ∈ bytes s ↔ Has s x := by
  induction s with
  | nil => simp [bytes]
  | cons e s ih => simp [bytes, ih, Rng.mem_bytes]

theorem size_eq_card (h : Normal s) : size s = (bytes s).card := by
  induction s with
  | nil => rfl
  | cons e s ih =>
    obtain ⟨hpos, hlt, hs⟩ := normal_cons.1 h
    have hdis : Disjoint e.bytes (bytes s) := by
      rw [Finset.disjoint_left]
      intro x hx hxs
      obtain ⟨b, hb, hxb, -⟩ := (mem_bytes s x).1 hxs
      have := hlt b hb
      have hx' := ((Rng.mem_bytes e x).1 hx).2
      omega
    have hcons : size (e :: s) = e.size + size s := by simp [size]
    rw [hcons, ih hs, bytes, Finset.card_union_of_disjoint hdis, Rng.card_bytes]
    omega

theorem has_of_size_le {t} (hs : Normal s) (ht : Normal t) (hsub : ∀ x, Has s x → Has t x)
    (hle : size t ≤ size s) (x : Int) (hx : Has t x) : Has s x := by
  rw [size_eq_card hs, size_eq_card ht] at hle
  have hsub' : bytes s ⊆ bytes t := fun y hy => (mem_bytes t y).2 (hsub y ((mem_bytes s y).1 hy))
  have heq := Finset.eq_of_subset_of_card_le hsub' (by exact_mod_cast hle)
  rw [← mem_bytes, heq, mem_bytes]
  exact hx

theorem size_nonneg (h : Normal s) : 0 ≤ size s := by
  rw [size_eq_card h]
  exact Int.natCast_nonneg _

theorem size_remove_of_has (h : Normal s) {r} (hr : 0 ≤ r.size)
    (hin : ∀ x, r.Has x → Has s x) : size (remove s r) = size s - r.size := by
  have hsub : r.bytes ⊆ bytes s := by
    intro x hx
    exact (mem_bytes s x).2 (hin x ((Rng.mem_bytes r x).1 hx))
  have hbytes : bytes (remove s r) = bytes s \ r.bytes := by
    ext x
    rw [Finset.mem_sdiff, mem_bytes, mem_bytes, Rng.mem_bytes, has_remove h]
  have hcard := Finset.card_sdiff_add_card_eq_card hsub
  rw [Rng.card_bytes] at hcard
  rw [size_eq_card (h.remove r), size_eq_card h, hbytes]
  omega

end Counting

section Folding

theorem normal_foldl_insert (rs : List Rng) {s} (h : Normal s) : Normal (rs.foldl insert s) := by
  induction rs generalizing s with
  | nil => exact h
  | cons r rs ih => exact ih (h.insert r)

theorem has_foldl_insert (rs : List Rng) {s} (h : Normal s) (x : Int) :
    Has (rs.foldl insert s) x ↔ Has s x ∨ Has rs x := by
  induction rs generalizing s with
  | nil => simp
  | cons r rs ih =>
    rw [List.foldl_cons, ih (h.insert r), has_insert h, has_cons]
    tauto

end Folding

end CacheRanges
