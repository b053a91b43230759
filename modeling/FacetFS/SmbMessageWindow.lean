import Mathlib

/-! # The message-id window of an SMB connection

`take` refuses a message id that was used before or that lies too far ahead.
The ring of slots is indexed modulo its length; the ids below `base` are refused
by comparison and the slots of the ids at or above it are exact. Message ids are
64-bit values, so `base` is kept modulo `2 ^ 64`. -/
namespace SmbMessageWindow

def maxCredits : ℕ := 512

def span : ℕ := maxCredits * 2

structure MessageWindow where
  base : ℕ
  used : Fin span → Bool

def MessageWindow.fresh : MessageWindow := ⟨0, fun _ => false⟩

def slot (id : ℕ) : Fin span := ⟨id % span, Nat.mod_lt _ (by decide)⟩

/-- The guards of `take`, in the order of the source. The last one refuses a
range that leaves the 64-bit id space. -/
def MessageWindow.inRange (w : MessageWindow) (id : UInt64) (charge : ℤ) : Bool :=
  !(decide (charge < 1) || decide (charge > span) || decide (id.toNat < w.base) ||
    decide (id.toNat - w.base > span - charge.toNat) ||
    decide (charge.toNat - 1 > 2 ^ 64 - 1 - id.toNat))

def MessageWindow.anyUsed (w : MessageWindow) (id count : ℕ) : Bool :=
  (List.range count).any fun i => w.used (slot (id + i))

def mark (used : Fin span → Bool) (id : ℕ) : ℕ → Fin span → Bool
  | 0 => used
  | n + 1 => Function.update (mark used id n) (slot (id + n)) true

/-- The loop that forgets the ids below the lowest outstanding one. Every round
clears a slot, so `span` rounds are enough. -/
def slide : ℕ → MessageWindow → MessageWindow
  | 0, w => w
  | k + 1, w =>
    if w.used (slot w.base) then
      slide k ⟨(w.base + 1) % 2 ^ 64, Function.update w.used (slot w.base) false⟩
    else w

def MessageWindow.take (w : MessageWindow) (id : UInt64) (charge : ℤ) :
    Bool × MessageWindow :=
  if !w.inRange id charge then (false, w)
  else if w.anyUsed id.toNat charge.toNat then (false, w)
  else (true, slide span ⟨w.base, mark w.used id.toNat charge.toNat⟩)

theorem slot_injective_in_window {b i j} (hi : b ≤ i) (hi' : i < b + span)
    (hj : b ≤ j) (hj' : j < b + span) (h : slot i = slot j) : i = j := by
  have hm : i % 1024 = j % 1024 := Fin.mk.inj h
  change i < b + 1024 at hi'
  change j < b + 1024 at hj'
  omega

theorem slot_add_span (i : ℕ) : slot (i + span) = slot i := by
  exact Fin.ext (Nat.add_mod_right i span)

variable (n : ℕ)

theorem mark_apply (used : Fin span → Bool) (id n : ℕ) (s : Fin span) :
    mark used id n s = true ↔ used s = true ∨ ∃ i < n, slot (id + i) = s := by
  induction n with
  | zero => simp [mark]
  | succ n ih =>
    by_cases hs : s = slot (id + n)
    · subst hs
      simp only [mark, Function.update_self, true_iff]
      exact .inr ⟨n, by omega, rfl⟩
    rw [mark, Function.update_of_ne hs, ih]
    constructor
    · rintro (h | ⟨i, hi, h⟩)
      · exact .inl h
      · exact .inr ⟨i, by omega, h⟩
    · rintro (h | ⟨i, hi, h⟩)
      · exact .inl h
      · refine .inr ⟨i, ?_, h⟩
        have hne : i ≠ n := by rintro rfl; exact hs h.symm
        omega

theorem anyUsed_iff (w : MessageWindow) (id n : ℕ) :
    w.anyUsed id n = true ↔ ∃ i < n, w.used (slot (id + i)) = true := by
  simp [MessageWindow.anyUsed]

theorem inRange_iff (w : MessageWindow) (id : UInt64) (charge : ℤ) :
    w.inRange id charge = true ↔ 1 ≤ charge ∧ ∀ i : ℕ, id.toNat ≤ i →
      (i : ℤ) < id.toNat + charge → i < 2 ^ 64 ∧ w.base ≤ i ∧ i < w.base + span := by
  have hid := id.toNat_lt
  have hspan : span = 1024 := rfl
  simp only [MessageWindow.inRange, hspan, Bool.not_eq_true', Bool.or_eq_false_iff,
    decide_eq_false_iff_not]
  constructor
  · rintro ⟨⟨⟨⟨hc, hs⟩, hb⟩, hd⟩, ho⟩
    exact ⟨by omega, fun i h₁ h₂ => by omega⟩
  · rintro ⟨hc, h⟩
    have first := h id.toNat le_rfl (by omega)
    have last := h (id.toNat + charge.toNat - 1) (by omega) (by omega)
    omega

/-- The slots are exact for the set `A` of accepted ids, before the base moves. -/
structure Covers (w : MessageWindow) (A : ℕ → Prop) : Prop where
  below : ∀ i < w.base, A i
  slots : ∀ i, w.base ≤ i → i < w.base + span → (w.used (slot i) = true ↔ A i)
  beyond : ∀ i, w.base + span ≤ i → ¬ A i

/-- The window between two calls: in addition the base itself is not accepted. -/
structure Tracks (w : MessageWindow) (A : ℕ → Prop) : Prop extends Covers w A where
  open_base : ¬ A w.base

theorem fresh_tracks : Tracks .fresh (fun _ => False) := by
  refine ⟨⟨?_, ?_, ?_⟩, ?_⟩ <;> simp [MessageWindow.fresh]

variable {w : MessageWindow} {A : ℕ → Prop}

theorem Tracks.base_isLeast (h : Tracks w A) : IsLeast {i | ¬ A i} w.base := by
  refine ⟨h.open_base, ?_⟩
  intro i hi
  by_contra hlt
  exact hi (h.below i (by omega))

theorem Tracks.base_eq {n} (h : Tracks w A) (hA : ∀ i, A i ↔ i < n) : w.base = n := by
  have h₁ := (hA _).not.mp h.open_base
  have h₂ : ¬ n < w.base := by
    intro hlt
    have := (hA n).mp (h.below n hlt)
    omega
  omega

theorem Covers.forget_base (h : Covers w A) (hu : w.used (slot w.base) = true) :
    Covers ⟨w.base + 1, Function.update w.used (slot w.base) false⟩ A := by
  have hspan : 0 < span := by decide
  have hb : A w.base := (h.slots w.base le_rfl (by omega)).mp hu
  refine ⟨?_, ?_, ?_⟩
  · intro i hi
    rcases Nat.lt_succ_iff_lt_or_eq.mp hi with hi | rfl
    · exact h.below i hi
    · exact hb
  · intro i hi hi'
    change w.base + 1 ≤ i at hi
    change i < w.base + 1 + span at hi'
    by_cases he : i = w.base + span
    · subst he
      have hn := h.beyond (w.base + span) le_rfl
      simp [slot_add_span, hn]
    have hne : slot i ≠ slot w.base := by
      intro hs
      have := slot_injective_in_window (by omega) (by omega) le_rfl (by omega) hs
      omega
    simpa [Function.update_of_ne hne] using h.slots i (by omega) (by omega)
  · intro i hi
    change w.base + 1 + span ≤ i at hi
    exact h.beyond i (by omega)

theorem slide_tracks {m} (hm : ¬ A m) (hm64 : m < 2 ^ 64) (k : ℕ) :
    ∀ w, Covers w A → w.base ≤ m → m ≤ w.base + k → Tracks (slide k w) A := by
  induction k with
  | zero =>
    intro w h hb hk
    have : w.base = m := by omega
    exact ⟨h, this ▸ hm⟩
  | succ k ih =>
    intro w h hb hk
    have hspan : 0 < span := by decide
    unfold slide
    split
    · next hu =>
      have hne : w.base ≠ m := by
        rintro rfl
        exact hm ((h.slots w.base le_rfl (by omega)).mp hu)
      have hmod : (w.base + 1) % 2 ^ 64 = w.base + 1 := Nat.mod_eq_of_lt (by omega)
      rw [hmod]
      exact ih _ (h.forget_base hu) (show w.base + 1 ≤ m by omega)
        (show m ≤ w.base + 1 + k by omega)
    · next hu =>
      exact ⟨h, fun ha => hu ((h.slots w.base le_rfl (by omega)).mpr ha)⟩

theorem Covers.mark_range (h : Covers w A) (id n : ℕ)
    (hin : ∀ i, id ≤ i → i < id + n → w.base ≤ i ∧ i < w.base + span) :
    Covers ⟨w.base, mark w.used id n⟩ (fun i => A i ∨ (id ≤ i ∧ i < id + n)) := by
  refine ⟨fun i hi => .inl (h.below i hi), ?_, ?_⟩
  · intro i hi hi'
    change w.base ≤ i at hi
    change i < w.base + span at hi'
    rw [mark_apply, h.slots i hi hi']
    constructor
    · rintro (ha | ⟨j, hj, hs⟩)
      · exact .inl ha
      · have hb := hin (id + j) (by omega) (by omega)
        have := slot_injective_in_window hb.1 hb.2 hi hi' hs
        exact .inr (by omega)
    · rintro (ha | ⟨h₁, h₂⟩)
      · exact .inl ha
      · exact .inr ⟨i - id, by omega, by rw [Nat.add_sub_cancel' h₁]⟩
  intro i hi
  change w.base + span ≤ i at hi
  rintro (ha | ⟨h₁, h₂⟩)
  · exact h.beyond i hi ha
  · have := hin i h₁ h₂
    omega

theorem take_refused {id charge} (h : (w.take id charge).1 = false) : (w.take id charge).2 = w := by
  unfold MessageWindow.take at *
  split_ifs at * <;> simp_all

theorem take_iff (h : Tracks w A) (id : UInt64) (charge : ℤ) :
    (w.take id charge).1 = true ↔ 1 ≤ charge ∧ ∀ i : ℕ, id.toNat ≤ i →
      (i : ℤ) < id.toNat + charge →
        i < 2 ^ 64 ∧ w.base ≤ i ∧ i < w.base + span ∧ ¬ A i := by
  have hval : (w.take id charge).1 = true ↔
      w.inRange id charge = true ∧ ¬ w.anyUsed id.toNat charge.toNat = true := by
    unfold MessageWindow.take
    split_ifs with h₁ h₂ <;> simp_all
  rw [hval, inRange_iff, anyUsed_iff]
  constructor
  · rintro ⟨⟨hc, hin⟩, hnone⟩
    refine ⟨hc, fun i h₁ h₂ => ?_⟩
    obtain ⟨h64, hb, hs⟩ := hin i h₁ h₂
    refine ⟨h64, hb, hs, fun ha => hnone ⟨i - id.toNat, by omega, ?_⟩⟩
    rw [Nat.add_sub_cancel' h₁]
    exact (h.slots i hb hs).mpr ha
  rintro ⟨hc, hall⟩
  refine ⟨⟨hc, fun i h₁ h₂ => ?_⟩, ?_⟩
  · obtain ⟨h64, hb, hs, _⟩ := hall i h₁ h₂
    exact ⟨h64, hb, hs⟩
  · rintro ⟨i, hi, hu⟩
    obtain ⟨_, hb, hs, hn⟩ := hall (id.toNat + i) (by omega) (by omega)
    exact hn ((h.slots _ hb hs).mp hu)

theorem take_tracks (h : Tracks w A) {id charge} (hok : (w.take id charge).1 = true) {m}
    (hm : ¬ (A m ∨ (id.toNat ≤ m ∧ m < id.toNat + charge.toNat))) (hm64 : m < 2 ^ 64) :
    Tracks (w.take id charge).2
      (fun i => A i ∨ (id.toNat ≤ i ∧ i < id.toNat + charge.toNat)) := by
  classical
  have hslide : (w.take id charge).2 =
      slide span ⟨w.base, mark w.used id.toNat charge.toNat⟩ := by
    unfold MessageWindow.take at hok ⊢
    split_ifs at hok ⊢
    rfl
  obtain ⟨hc, hin⟩ := (take_iff h id charge).mp hok
  have hcov := h.toCovers.mark_range id.toNat charge.toNat (by
    intro i h₁ h₂
    obtain ⟨_, hb, hs, _⟩ := hin i h₁ (by omega)
    exact ⟨hb, hs⟩)
  have hex : ∃ m, ¬ (A m ∨ (id.toNat ≤ m ∧ m < id.toNat + charge.toNat)) := ⟨m, hm⟩
  have hleast := Nat.find_min' hex hm
  have hspan := Nat.find_min' hex (hcov.beyond (w.base + span) le_rfl)
  rw [hslide]
  refine slide_tracks (Nat.find_spec hex) (by omega) span _ hcov ?_ hspan
  by_contra hlt
  exact Nat.find_spec hex (.inl (h.below _ (by simpa using hlt)))

section Ledger

variable {l : Ledger} {c : UInt64 × ℤ} (cs : List (UInt64 × ℤ))

/-- A window together with the ranges it accepted so far, newest first. -/
structure Ledger where
  window : MessageWindow
  accepted : List (ℕ × ℕ)

def Ledger.call (l : Ledger) (c : UInt64 × ℤ) : Ledger :=
  match l.window.take c.1 c.2 with
  | (true, w) => ⟨w, (c.1.toNat, c.2.toNat) :: l.accepted⟩
  | (false, w) => ⟨w, l.accepted⟩

/-- The calls of `cs`, one after another, on a fresh window. -/
def run (cs : List (UInt64 × ℤ)) : Ledger := cs.foldl Ledger.call ⟨.fresh, []⟩

def Ledger.total (l : Ledger) : ℕ := (l.accepted.map Prod.snd).sum

def Ledger.Accepted (l : Ledger) (i : ℕ) : Prop :=
  ∃ r ∈ l.accepted, r.1 ≤ i ∧ i < r.1 + r.2

theorem run_concat (c : UInt64 × ℤ) : run (cs ++ [c]) = (run cs).call c := by
  simp [run]

def ids (rs : List (ℕ × ℕ)) : Finset ℕ :=
  rs.foldr (fun r s => Finset.Ico r.1 (r.1 + r.2) ∪ s) ∅

theorem mem_ids {rs i} : i ∈ ids rs ↔ ∃ r ∈ rs, r.1 ≤ i ∧ i < r.1 + r.2 := by
  induction rs with
  | nil => simp [ids]
  | cons r rs ih =>
    rw [show ids (r :: rs) = Finset.Ico r.1 (r.1 + r.2) ∪ ids rs from rfl,
      Finset.mem_union, Finset.mem_Ico, ih]
    simp

theorem card_ids_le (rs : List (ℕ × ℕ)) : (ids rs).card ≤ (rs.map Prod.snd).sum := by
  induction rs with
  | nil => simp [ids]
  | cons r rs ih =>
    calc (Finset.Ico r.1 (r.1 + r.2) ∪ ids rs).card
        ≤ (Finset.Ico r.1 (r.1 + r.2)).card + (ids rs).card := Finset.card_union_le _ _
      _ ≤ r.2 + (rs.map Prod.snd).sum := by
          rw [Nat.card_Ico]
          omega
      _ = ((r :: rs).map Prod.snd).sum := by simp

theorem exists_not_accepted (l : Ledger) : ∃ m ≤ l.total, ¬ l.Accepted m := by
  by_contra hall
  push Not at hall
  have hsub : Finset.range (l.total + 1) ⊆ ids l.accepted := by
    intro i hi
    exact mem_ids.mpr (hall i (by simpa [Nat.lt_succ_iff] using hi))
  have hcard := (Finset.card_le_card hsub).trans (card_ids_le l.accepted)
  rw [Finset.card_range] at hcard
  change l.total + 1 ≤ l.total at hcard
  omega

theorem accepted_cons (w : MessageWindow) (r : ℕ × ℕ) (rs : List (ℕ × ℕ)) (i : ℕ) :
    (⟨w, r :: rs⟩ : Ledger).Accepted i ↔
      (⟨w, rs⟩ : Ledger).Accepted i ∨ (r.1 ≤ i ∧ i < r.1 + r.2) := by
  simp only [Ledger.Accepted, List.mem_cons, exists_eq_or_imp]
  exact or_comm

theorem call_refused
    (h : (l.window.take c.1 c.2).1 = false) : l.call c = l := by
  unfold Ledger.call
  rw [show l.window.take c.1 c.2 = (false, l.window) from Prod.ext h (take_refused h)]

theorem call_accepted
    (h : (l.window.take c.1 c.2).1 = true) : l.call c =
      ⟨(l.window.take c.1 c.2).2, (c.1.toNat, c.2.toNat) :: l.accepted⟩ := by
  unfold Ledger.call
  rw [show l.window.take c.1 c.2 = (true, (l.window.take c.1 c.2).2) from Prod.ext h rfl]

/-- A call keeps the window exact, as long as the total charge fits in 64 bits. -/
theorem call_tracks (h : Tracks l.window l.Accepted) (c : UInt64 × ℤ)
    (hsum : (l.call c).total < 2 ^ 64) : Tracks (l.call c).window (l.call c).Accepted := by
  cases hok : (l.window.take c.1 c.2).1 with
  | false => rwa [call_refused hok]
  | true =>
    obtain ⟨m, hm, hnm⟩ := exists_not_accepted (l.call c)
    have hacc : (l.call c).Accepted =
        fun i => l.Accepted i ∨ (c.1.toNat ≤ i ∧ i < c.1.toNat + c.2.toNat) := by
      funext i
      rw [call_accepted hok, accepted_cons]
      rfl
    rw [hacc] at hnm ⊢
    rw [call_accepted hok]
    exact take_tracks h hok hnm (by omega)

theorem total_call (l : Ledger) (c : UInt64 × ℤ) : l.total ≤ (l.call c).total := by
  unfold Ledger.call
  split <;> simp [Ledger.total]

theorem run_tracks (hsum : (run cs).total < 2 ^ 64) : Tracks (run cs).window (run cs).Accepted := by
  induction cs using List.reverseRecOn with
  | nil =>
    have hnone : (⟨.fresh, []⟩ : Ledger).Accepted = fun _ => False := by
      funext i
      simp [Ledger.Accepted]
    change Tracks .fresh (⟨.fresh, []⟩ : Ledger).Accepted
    rw [hnone]
    exact fresh_tracks
  | append_singleton cs c ih =>
    rw [run_concat] at hsum ⊢
    exact call_tracks (ih ((total_call _ c).trans_lt hsum)) c hsum

/-- For every sequence of calls whose accepted charges stay below `2 ^ 64`, the next
call is accepted exactly when its ids are 64-bit values inside the window that were
not accepted before; a refusal changes nothing; and the window stays exact. -/
theorem take_replay_exact (cs : List (UInt64 × ℤ)) (id : UInt64) (charge : ℤ)
    (hsum : (run (cs ++ [(id, charge)])).total < 2 ^ 64) :
    (((run cs).window.take id charge).1 = true ↔
      1 ≤ charge ∧ ∀ i : ℕ, id.toNat ≤ i → (i : ℤ) < id.toNat + charge →
        i < 2 ^ 64 ∧ (run cs).window.base ≤ i ∧ i < (run cs).window.base + 1024 ∧
          ¬ (run cs).Accepted i) ∧
    (((run cs).window.take id charge).1 = false →
      ((run cs).window.take id charge).2 = (run cs).window) ∧
    IsLeast {i | ¬ (run (cs ++ [(id, charge)])).Accepted i}
      (run (cs ++ [(id, charge)])).window.base ∧
    ∀ i, (run (cs ++ [(id, charge)])).window.base ≤ i →
      i < (run (cs ++ [(id, charge)])).window.base + 1024 →
      ((run (cs ++ [(id, charge)])).window.used (slot i) = true ↔
        (run (cs ++ [(id, charge)])).Accepted i) := by
  have hbefore : (run cs).total < 2 ^ 64 := by
    rw [run_concat] at hsum
    exact (total_call _ _).trans_lt hsum
  have before := run_tracks cs hbefore
  have after := run_tracks _ hsum
  exact ⟨take_iff before id charge, take_refused, after.base_isLeast, after.slots⟩

theorem take_replay_exact_first : (run ([] ++ [(0, 1)])).total < 2 ^ 64 ∧
    ((run []).window.take 0 1).1 = true ∧
    IsLeast {i | ¬ (run ([] ++ [(0, 1)])).Accepted i}
      (run ([] ++ [(0, 1)])).window.base := by
  have hsum : (run ([] ++ [(0, 1)])).total < 2 ^ 64 := by decide
  exact ⟨hsum, by decide, (take_replay_exact [] 0 1 hsum).2.2.1⟩

/-- Calls that charge `maxCredits` ids each, back to back from id zero. -/
def fullCharges (n : ℕ) : List (UInt64 × ℤ) :=
  (List.range n).map fun k => (UInt64.ofNat (512 * k), 512)

theorem fullCharges_succ :
    fullCharges (n + 1) = fullCharges n ++ [(UInt64.ofNat (512 * n), 512)] := by
  simp [fullCharges, List.range_succ]

theorem fullCharges_accepted (hn : 512 * n < 2 ^ 64) : (run (fullCharges n)).total = 512 * n ∧
      ∀ i, (run (fullCharges n)).Accepted i ↔ i < 512 * n := by
  induction n with
  | zero => simp [fullCharges, run, Ledger.total, Ledger.Accepted]
  | succ n ih =>
    obtain ⟨htot, hacc⟩ := ih (by omega)
    have htr := run_tracks (fullCharges n) (by omega)
    have hbase := htr.base_eq hacc
    have hid : (UInt64.ofNat (512 * n)).toNat = 512 * n :=
      UInt64.toNat_ofNat_of_lt' (show 512 * n < 2 ^ 64 by omega)
    have hok : ((run (fullCharges n)).window.take (UInt64.ofNat (512 * n)) 512).1 = true := by
      rw [take_iff htr, hid]
      refine ⟨by decide, fun i h₁ h₂ => ?_⟩
      have hspan : span = 1024 := rfl
      rw [hbase, hacc, hspan]
      omega
    have hcall : run (fullCharges (n + 1)) =
        ⟨((run (fullCharges n)).window.take (UInt64.ofNat (512 * n)) 512).2,
          (512 * n, 512) :: (run (fullCharges n)).accepted⟩ := by
      rw [fullCharges_succ, run_concat, call_accepted (c := (UInt64.ofNat (512 * n), 512)) hok]
      simp only [hid]
      rfl
    constructor
    · rw [hcall]
      simp only [Ledger.total, List.map_cons, List.sum_cons] at htot ⊢
      omega
    intro i
    rw [hcall, accepted_cons]
    change (run (fullCharges n)).Accepted i ∨ _ ↔ _
    rw [hacc]
    change i < 512 * n ∨ (512 * n ≤ i ∧ i < 512 * n + 512) ↔ _
    omega

/-- At the end of the id space a range inside the window is refused although none of
its ids was accepted: its second id is no 64-bit value. -/
theorem take_refuses_overflowing_range :
    (run (fullCharges (2 ^ 55 - 1) ++ [(UInt64.ofNat (2 ^ 64 - 1), 2)])).total < 2 ^ 64 ∧
    (1 : ℤ) ≤ 2 ∧
    (∀ i : ℕ, 2 ^ 64 - 1 ≤ i → i < 2 ^ 64 - 1 + 2 →
      (run (fullCharges (2 ^ 55 - 1))).window.base ≤ i ∧
      i < (run (fullCharges (2 ^ 55 - 1))).window.base + 1024 ∧
      ¬ (run (fullCharges (2 ^ 55 - 1))).Accepted i) ∧
    ((run (fullCharges (2 ^ 55 - 1))).window.take (UInt64.ofNat (2 ^ 64 - 1)) 2).1 = false := by
  obtain ⟨htot, hacc⟩ := fullCharges_accepted (2 ^ 55 - 1) (by omega)
  have htr := run_tracks (fullCharges (2 ^ 55 - 1)) (by omega)
  have hbase := htr.base_eq hacc
  have hid : (UInt64.ofNat (2 ^ 64 - 1)).toNat = 2 ^ 64 - 1 :=
    UInt64.toNat_ofNat_of_lt' (show 2 ^ 64 - 1 < 2 ^ 64 by omega)
  have hno : ((run (fullCharges (2 ^ 55 - 1))).window.take
      (UInt64.ofNat (2 ^ 64 - 1)) 2).1 = false := by
    rw [← Bool.not_eq_true, take_iff htr, hid]
    rintro ⟨_, h⟩
    have := (h (2 ^ 64) (by omega) (by omega)).1
    omega
  refine ⟨?_, by decide, fun i h₁ h₂ => ?_, hno⟩
  · rw [run_concat, call_refused (c := (UInt64.ofNat (2 ^ 64 - 1), 2)) hno, htot]
    omega
  · rw [hbase, hacc]
    omega

end Ledger

end SmbMessageWindow
