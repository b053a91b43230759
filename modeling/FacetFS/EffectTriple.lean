import Mathlib

/-! # Computations with a state and failures

A computation keeps its state when it fails, so a failure may come after effects. `Triple` gives a
postcondition to both outcomes; `Keeps` is the case of one condition that the whole computation
maintains; `Refuses` says that it fails in a given state without touching it. -/
namespace EffectTriple

variable {ε σ α β : Type}

def refuse (c : Prop) [Decidable c] (e : ε) : EStateM ε σ Unit := if c then throw e else pure ()

def require (o : Option α) (e : ε) : EStateM ε σ α :=
  match o with
  | some a => pure a
  | none => throw e

def orThrow : Except ε α → EStateM ε σ α
  | .ok a => pure a
  | .error e => throw e

section Runs

variable {s t : σ}

theorem bind_eq_ok {x : EStateM ε σ α} {f : α → EStateM ε σ β} {b : β} :
    (x >>= f) s = .ok b t ↔ ∃ a u, x s = .ok a u ∧ f a u = .ok b t := by
  change EStateM.bind x f s = _ ↔ _
  rw [EStateM.bind]
  cases x s with
  | ok a u =>
    constructor
    · intro h
      exact ⟨a, u, rfl, h⟩
    · rintro ⟨a', u', he, h⟩
      cases he
      exact h
  | error e u => simp

theorem pure_eq_ok {a b} : (pure a : EStateM ε σ α) s = .ok b t ↔ b = a ∧ t = s := by
  constructor
  · intro h
    cases h
    exact ⟨rfl, rfl⟩
  · rintro ⟨rfl, rfl⟩
    rfl

theorem throw_ne_ok {e a} : (throw e : EStateM ε σ α) s ≠ .ok a t := by
  intro h
  cases h

theorem refuse_eq_ok {c : Prop} [Decidable c] {e u} :
    (refuse c e : EStateM ε σ Unit) s = .ok u t ↔ ¬ c ∧ t = s := by
  rw [refuse]
  split
  · rename_i hc
    simp [throw_ne_ok, hc]
  · rename_i hc
    simp [pure_eq_ok, hc]

theorem refuse_bind_pos {c : Prop} [Decidable c] {e : ε} {f : Unit → EStateM ε σ β} (hc : c) :
    (refuse c e >>= f) s = .error e s := by
  rw [refuse, if_pos hc]
  rfl

theorem refuse_bind_neg {c : Prop} [Decidable c] {e : ε} {f : Unit → EStateM ε σ β} (hc : ¬ c) :
    (refuse c e >>= f) s = f () s := by
  rw [refuse, if_neg hc]
  rfl

theorem require_bind_none {e : ε} {f : α → EStateM ε σ β} :
    (require none e >>= f) s = .error e s := rfl

theorem require_bind_some {a : α} {e : ε} {f : α → EStateM ε σ β} :
    (require (some a) e >>= f) s = f a s := rfl

theorem bind_of_eq_ok {x : EStateM ε σ α} {f : α → EStateM ε σ β} {a : α} (h : x s = .ok a t) :
    (x >>= f) s = f a t := by
  change EStateM.bind x f s = _
  rw [EStateM.bind, h]

theorem require_eq_ok {o e a} : (require o e : EStateM ε σ α) s = .ok a t ↔ o = some a ∧ t = s := by
  cases o with
  | none => simp [require, throw_ne_ok]
  | some b => simp [require, pure_eq_ok, eq_comm]

theorem orThrow_eq_ok {r a} : (orThrow r : EStateM ε σ α) s = .ok a t ↔ r = .ok a ∧ t = s := by
  cases r with
  | error e => simp [orThrow, throw_ne_ok]
  | ok b => simp [orThrow, pure_eq_ok, eq_comm]

end Runs

def succeeds : EStateM.Result ε σ α → Bool
  | .ok _ _ => true
  | .error _ _ => false

theorem exists_of_succeeds {r : EStateM.Result ε σ α} (h : succeeds r = true) :
    ∃ a s, r = .ok a s := by
  cases r with
  | ok a s => exact ⟨a, s, rfl⟩
  | error e s => cases h

def finalState : EStateM.Result ε σ α → σ
  | .ok _ s => s
  | .error _ s => s

theorem finalState_bind_pure {x : EStateM ε σ α} (b : β) (s : σ) :
    finalState ((x >>= fun _ => pure b) s) = finalState (x s) := by
  change finalState (EStateM.bind x _ s) = _
  rw [EStateM.bind]
  cases x s with
  | ok a t => rfl
  | error e t => rfl

def Triple (P : σ → Prop) (x : EStateM ε σ α) (Q : α → σ → Prop) (E : σ → Prop) : Prop :=
  ∀ s, P s → match x s with
    | .ok a t => Q a t
    | .error _ t => E t

theorem Triple.pure {P Q E} (a : α)
    (h : ∀ s, P s → Q a s) : Triple P (Pure.pure a : EStateM ε σ α) Q E := h

theorem Triple.throw {P Q E} (e : ε)
    (h : ∀ s, P s → E s) : Triple P (MonadExcept.throw e : EStateM ε σ α) Q E := h

theorem Triple.bind {P : σ → Prop} {Q : α → σ → Prop} {R : β → σ → Prop} {E : σ → Prop}
    {x : EStateM ε σ α} {f : α → EStateM ε σ β} (hx : Triple P x Q E)
    (hf : ∀ a, Triple (Q a) (f a) R E) : Triple P (x >>= f) R E := by
  intro s hs
  have h := hx s hs
  change match EStateM.bind x f s with
    | .ok b t => R b t
    | .error _ t => E t
  rw [EStateM.bind]
  cases hxs : x s with
  | ok a t =>
    rw [hxs] at h
    exact hf a t h
  | error e t =>
    rw [hxs] at h
    exact h

theorem Triple.imp {P P' : σ → Prop} {Q Q' : α → σ → Prop} {E E' : σ → Prop}
    {x : EStateM ε σ α} (hx : Triple P x Q E) (hP : ∀ s, P' s → P s)
    (hQ : ∀ a s, Q a s → Q' a s) (hE : ∀ s, E s → E' s) : Triple P' x Q' E' := by
  intro s hs
  have h := hx s (hP s hs)
  cases hxs : x s with
  | ok a t =>
    rw [hxs] at h
    exact hQ a t h
  | error e t =>
    rw [hxs] at h
    exact hE t h

theorem Triple.bind_safe {P : σ → Prop} {Q : α → σ → Prop} {R : β → σ → Prop} {E : σ → Prop}
    {x : EStateM ε σ α} {f : α → EStateM ε σ β} (hx : Triple P x Q fun _ => False)
    (hf : ∀ a, Triple (Q a) (f a) R E) : Triple P (x >>= f) R E :=
  Triple.bind (hx.imp (fun _ h => h) (fun _ _ h => h) fun _ h => h.elim) hf

theorem Triple.finalState {P R : σ → Prop} {x : EStateM ε σ α} (h : Triple P x (fun _ => R) R)
    {s : σ} (hs : P s) : R (EffectTriple.finalState (x s)) := by
  have hk := h s hs
  cases hx : x s with
  | ok a t =>
    rw [hx] at hk
    exact hk
  | error e t =>
    rw [hx] at hk
    exact hk

theorem Triple.refuse {P E} (c : Prop) [Decidable c] (e : ε) (h : ∀ s, P s → E s) :
    Triple P (refuse c e : EStateM ε σ Unit) (fun _ s => P s ∧ ¬ c) E := by
  rw [EffectTriple.refuse]
  split
  · exact Triple.throw e h
  · rename_i hc
    exact Triple.pure () fun s hs => ⟨hs, hc⟩

theorem Triple.require {P E} (o : Option α) (e : ε) (h : ∀ s, P s → E s) :
    Triple P (require o e : EStateM ε σ α) (fun a s => P s ∧ o = some a) E := by
  cases o with
  | none => exact Triple.throw e h
  | some a => exact Triple.pure a fun s hs => ⟨hs, rfl⟩

def Keeps (P : σ → Prop) (x : EStateM ε σ α) : Prop := Triple P x (fun _ => P) P

namespace Keeps

variable {P : σ → Prop}

theorem pure (a : α) : Keeps P (Pure.pure a : EStateM ε σ α) := fun _ h => h

theorem throw (e : ε) : Keeps P (MonadExcept.throw e : EStateM ε σ α) := fun _ h => h

theorem bind {x : EStateM ε σ α} {f : α → EStateM ε σ β} (hx : Keeps P x)
    (hf : ∀ a, Keeps P (f a)) : Keeps P (x >>= f) :=
  Triple.bind hx hf

theorem refuse (c : Prop) [Decidable c] (e : ε) :
    Keeps P (EffectTriple.refuse c e : EStateM ε σ Unit) :=
  (Triple.refuse c e fun _ h => h).imp (fun _ h => h) (fun _ _ h => h.1) fun _ h => h

theorem require (o : Option α) (e : ε) : Keeps P (EffectTriple.require o e : EStateM ε σ α) :=
  (Triple.require o e fun _ h => h).imp (fun _ h => h) (fun _ _ h => h.1) fun _ h => h

theorem orThrow (r : Except ε α) : Keeps P (EffectTriple.orThrow r : EStateM ε σ α) := by
  cases r with
  | ok a => exact pure a
  | error e => exact throw e

theorem require_bind {o : Option α} {e : ε} {f : α → EStateM ε σ β}
    (h : ∀ a, o = some a → Keeps P (f a)) : Keeps P (EffectTriple.require o e >>= f) := by
  cases o with
  | none => exact fun _ hs => hs
  | some a => exact h a rfl

theorem ite {c : Prop} [Decidable c] {x y : EStateM ε σ α} (hx : Keeps P x) (hy : Keeps P y) :
    Keeps P (if c then x else y) := by
  split
  · exact hx
  · exact hy

theorem forM {γ : Type} (l : List γ) {f : γ → EStateM ε σ PUnit} (hf : ∀ a, Keeps P (f a)) :
    Keeps P (l.forM f) := by
  induction l with
  | nil => exact pure _
  | cons a as ih => exact bind (hf a) fun _ => ih

theorem finalState {x : EStateM ε σ α} (h : Keeps P x) {s : σ} (hs : P s) :
    P (EffectTriple.finalState (x s)) :=
  Triple.finalState h hs

end Keeps

def Reads (x : EStateM ε σ α) : Prop := ∀ s, EffectTriple.finalState (x s) = s

namespace Reads

theorem pure (a : α) : Reads (Pure.pure a : EStateM ε σ α) := fun _ => rfl

theorem throw (e : ε) : Reads (MonadExcept.throw e : EStateM ε σ α) := fun _ => rfl

theorem triple {x : EStateM ε σ α} (hx : Reads x) {P : σ → Prop} :
    Triple P x (fun a s => P s ∧ x s = .ok a s) P := by
  intro s hs
  have h := hx s
  cases hxs : x s with
  | ok a t =>
    rw [hxs] at h
    obtain rfl : t = s := h
    exact ⟨hs, hxs⟩
  | error e t =>
    rw [hxs] at h
    obtain rfl : t = s := h
    exact hs

theorem keeps {x : EStateM ε σ α} (hx : Reads x) {P : σ → Prop} : Keeps P x :=
  hx.triple.imp (fun _ h => h) (fun _ _ h => h.1) fun _ h => h

theorem of_keeps {x : EStateM ε σ α} (h : ∀ s, Keeps (· = s) x) : Reads x :=
  fun s => (h s).finalState rfl

theorem bind {x : EStateM ε σ α} {f : α → EStateM ε σ β} (hx : Reads x) (hf : ∀ a, Reads (f a)) :
    Reads (x >>= f) :=
  of_keeps fun _ => hx.keeps.bind fun a => (hf a).keeps

theorem refuse (c : Prop) [Decidable c] (e : ε) :
    Reads (EffectTriple.refuse c e : EStateM ε σ Unit) :=
  of_keeps fun _ => Keeps.refuse c e

theorem require (o : Option α) (e : ε) : Reads (EffectTriple.require o e : EStateM ε σ α) :=
  of_keeps fun _ => Keeps.require o e

end Reads

/-- The computation fails in this state and leaves it as it is. -/
def Refuses (x : EStateM ε σ α) (s : σ) : Prop := ∃ e, x s = .error e s

namespace Refuses

variable {s : σ}

theorem throw (e : ε) : Refuses (MonadExcept.throw e : EStateM ε σ α) s := ⟨e, rfl⟩

theorem bind {x : EStateM ε σ α} (f : α → EStateM ε σ β) (h : Refuses x s) :
    Refuses (x >>= f) s := by
  obtain ⟨e, he⟩ := h
  refine ⟨e, ?_⟩
  change EStateM.bind x f s = _
  rw [EStateM.bind, he]

theorem bind_ok {x : EStateM ε σ α} {f : α → EStateM ε σ β} {a : α} (hx : x s = .ok a s)
    (h : Refuses (f a) s) : Refuses (x >>= f) s := by
  obtain ⟨e, he⟩ := h
  refine ⟨e, ?_⟩
  change EStateM.bind x f s = _
  rw [EStateM.bind, hx]
  exact he

theorem refuse_bind {c : Prop} [Decidable c] {e : ε} {f : Unit → EStateM ε σ β}
    (h : ¬ c → Refuses (f ()) s) : Refuses (refuse c e >>= f) s := by
  by_cases hc : c
  · apply bind
    rw [EffectTriple.refuse, if_pos hc]
    exact throw e
  apply bind_ok (a := ()) _ (h hc)
  rw [EffectTriple.refuse, if_neg hc]
  rfl

theorem require_bind {o : Option α} {e : ε} {f : α → EStateM ε σ β}
    (h : ∀ a, o = some a → Refuses (f a) s) : Refuses (require o e >>= f) s := by
  cases o with
  | none => exact bind f (throw e)
  | some a => exact bind_ok rfl (h a rfl)

theorem finalState {x : EStateM ε σ α} (h : Refuses x s) : EffectTriple.finalState (x s) = s := by
  obtain ⟨e, he⟩ := h
  rw [he]
  rfl

end Refuses

end EffectTriple
