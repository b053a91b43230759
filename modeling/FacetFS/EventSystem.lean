import Mathlib

/-! # Runs of a partial event function

A system is a function `next` from a state and an event to the next state, where
`none` means that the event is not enabled. Choices of the environment are part
of the event, so a run is a list of events. -/
namespace EventSystem

variable {σ ε : Type*} (next : σ → ε → Option σ)

def run : σ → List ε → Option σ
  | s, [] => some s
  | s, e :: es => (next s e).bind fun t => run t es

/-- Every step of the run meets a condition on the event and the state before it. -/
def Meets (guard : σ → ε → Prop) : σ → List ε → Prop
  | _, [] => True
  | s, e :: es => guard s e ∧ ∀ t, next s e = some t → Meets guard t es

variable {next}

theorem run_cons {s u e es} :
    run next s (e :: es) = some u ↔ ∃ t, next s e = some t ∧ run next t es = some u := by
  simp [run, Option.bind_eq_some_iff]

theorem run_append {s u es fs} : run next s (es ++ fs) = some u ↔
      ∃ t, run next s es = some t ∧ run next t fs = some u := by
  induction es generalizing s with
  | nil => simp [run]
  | cons e es ih =>
    rw [List.cons_append, run_cons]
    constructor
    · rintro ⟨t, he, h⟩
      obtain ⟨v, hes, hfs⟩ := ih.mp h
      exact ⟨v, run_cons.mpr ⟨t, he, hes⟩, hfs⟩
    · rintro ⟨v, h, hfs⟩
      obtain ⟨t, he, hes⟩ := run_cons.mp h
      exact ⟨t, he, ih.mpr ⟨v, hes, hfs⟩⟩

/-- A run whose last state is known by evaluating `P` there. -/
theorem exists_run {P Q : σ → Prop} [DecidablePred P] {s es}
    (h : (run next s es).any (fun t => decide (P t)) = true)
    (hq : ∀ t, run next s es = some t → P t → Q t) : ∃ t, run next s es = some t ∧ Q t := by
  obtain ⟨t, ht, hp⟩ := (Option.any_eq_true _ _).1 h
  exact ⟨t, ht, hq t ht (of_decide_eq_true hp)⟩

theorem Meets.cons {guard s t e es} (h : next s e = some t) (hg : guard s e)
    (hm : Meets next guard t es) : Meets next guard s (e :: es) := by
  refine ⟨hg, ?_⟩
  intro u hu
  obtain rfl := Option.some.inj (h.symm.trans hu)
  exact hm

/-- What holds at the start and is kept by every step holds after every run. -/
theorem run_invariant {I : σ → Prop} (step : ∀ s e t, I s → next s e = some t → I t) {s u : σ}
    {es : List ε} (hs : I s) (h : run next s es = some u) : I u := by
  induction es generalizing s with
  | nil =>
    obtain rfl : s = u := by simpa [run] using h
    exact hs
  | cons e es ih =>
    obtain ⟨t, he, h⟩ := run_cons.mp h
    exact ih (step s e t hs he) h

theorem run_invariant_of_meets {I : σ → Prop} {guard : σ → ε → Prop}
    (step : ∀ s e t, I s → guard s e → next s e = some t → I t) {s u : σ} {es : List ε}
    (hs : I s) (hg : Meets next guard s es) (h : run next s es = some u) : I u := by
  induction es generalizing s with
  | nil =>
    obtain rfl : s = u := by simpa [run] using h
    exact hs
  | cons e es ih =>
    obtain ⟨t, he, h⟩ := run_cons.mp h
    exact ih (step s e t hs hg.1 he) (hg.2 t he) h

/-- If a step from a state with `I` keeps `I`, and keeps `P` exactly if it meets the condition, then
`P` holds after the runs that meet it, and the first step that does not breaks `P`. -/
theorem kept_iff (next : σ → ε → Option σ) {I P : σ → Prop} {guard : σ → ε → Prop} {s : σ}
    (step : ∀ s e t, I s → next s e = some t → I t ∧ (P s → (P t ↔ guard s e)))
    (hi : I s) (hp : P s) :
    (∀ es t, Meets next guard s es → run next s es = some t → P t) ∧
    ∀ es t e u, run next s es = some t → P t → next t e = some u → (P u ↔ guard t e) := by
  constructor
  · intro es t hm h
    refine (run_invariant_of_meets (I := fun s => I s ∧ P s) ?_ ⟨hi, hp⟩ hm h).2
    intro s e t hs hg he
    obtain ⟨ht, hiff⟩ := step s e t hs.1 he
    exact ⟨ht, (hiff hs.2).2 hg⟩
  · intro es t e u h ht he
    have hinv : I t := run_invariant (fun s e t hs he => (step s e t hs he).1) hi h
    exact (step t e u hinv he).2 ht

end EventSystem
