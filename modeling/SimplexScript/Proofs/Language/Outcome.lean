import SimplexScript.Language.State

/-!
# Outcomes of computations

What a computation does is said once for both of its outcomes: the result
meets one condition, the fault another. A session is left open on both sides,
so a statement of this kind holds whatever was noted and logged before.
-/

set_option autoImplicit false

namespace SimplexScript

variable {σ α β : Type}

/-- The result meets `good`, or the fault meets `fault`. -/
def Yields (x : Except Fault α) (good : α → Prop) (fault : Fault → Prop) : Prop :=
  match x with
  | .ok a => good a
  | .error e => fault e

/-- The same for a computation that takes and leaves a session, from every session. -/
def Meets (x : EStateM Fault σ α) (good : α → Prop) (fault : Fault → Prop) : Prop :=
  ∀ s, match x s with
    | .ok a _ => good a
    | .error e _ => fault e

theorem bind_eq_ok {x : EStateM Fault σ α} {f : α → EStateM Fault σ β} {s t : σ} {b : β} :
    (x >>= f) s = .ok b t ↔ ∃ a u, x s = .ok a u ∧ f a u = .ok b t := by
  simp only [Bind.bind, EStateM.bind]
  cases x s with
  | ok a u =>
    constructor
    · exact fun h => ⟨a, u, rfl, h⟩
    · rintro ⟨_, _, h, hf⟩
      cases h
      exact hf
  | error e u => simp

def resultPasses (check : α → Bool) : EStateM.Result Fault σ α → Bool
  | .ok a _ => check a
  | .error _ _ => false

theorem exists_of_resultPasses {check : α → Bool} {r : EStateM.Result Fault σ α}
    (h : resultPasses check r = true) : ∃ a t, r = .ok a t ∧ check a = true := by
  cases r with
  | ok a t => exact ⟨a, t, rfl, h⟩
  | error e t => cases h

namespace Yields

variable {fault : Fault → Prop}

theorem bind {x : Except Fault α} {f : α → Except Fault β} {P : α → Prop} {Q : β → Prop}
    (hx : Yields x P fault) (hf : ∀ a, P a → Yields (f a) Q fault) : Yields (x >>= f) Q fault := by
  cases x with
  | ok a => exact hf a hx
  | error e => exact hx

theorem any (x : Except Fault α) : Yields x (fun _ => True) (fun _ => True) := by
  cases x <;> trivial

theorem weaken {x : Except Fault α} {P : α → Prop} {fault' : Fault → Prop}
    (hx : Yields x P fault) (h : ∀ e, fault e → fault' e) : Yields x P fault' := by
  cases x with
  | ok a => exact hx
  | error e => exact h e hx

theorem mono {x : Except Fault α} {P Q : α → Prop} (hx : Yields x P fault)
    (h : ∀ a, P a → Q a) : Yields x Q fault := by
  cases x with
  | ok a => exact h a hx
  | error e => exact hx

end Yields

namespace Meets

variable {fault : Fault → Prop} {P : α → Prop} {Q : β → Prop}

theorem pure {a : α} (h : P a) : Meets (pure a : EStateM Fault σ α) P fault := fun _ => h

theorem throw {e : Fault} (h : fault e) : Meets (throw e : EStateM Fault σ α) P fault := fun _ => h

theorem bind {x : EStateM Fault σ α} {f : α → EStateM Fault σ β} (hx : Meets x P fault)
    (hf : ∀ a, P a → Meets (f a) Q fault) : Meets (x >>= f) Q fault := by
  intro s
  have h := hx s
  simp only [Bind.bind, EStateM.bind]
  cases hs : x s with
  | ok a t =>
    rw [hs] at h
    exact hf a h t
  | error e t =>
    rw [hs] at h
    exact h

theorem lift {x : Except Fault α} (h : Yields x P fault) :
    Meets (liftM x : EStateM Fault σ α) P fault := by
  intro s
  cases x with
  | ok a => exact h
  | error e => exact h

theorem silent {x : Noted α} (h : Meets x P fault) : Meets (Traced.silent x) P fault := by
  intro s
  have hx := h s.notes
  simp only [Traced.silent]
  cases hs : x s.notes with
  | ok a n =>
    rw [hs] at hx
    exact hx
  | error e n =>
    rw [hs] at hx
    exact hx

theorem mono {x : EStateM Fault σ α} {P' : α → Prop} (h : Meets x P fault)
    (hP : ∀ a, P a → P' a) : Meets x P' fault := by
  intro s
  have hx := h s
  cases hs : x s with
  | ok a t =>
    rw [hs] at hx
    exact hP a hx
  | error e t =>
    rw [hs] at hx
    exact hx

theorem and {x : EStateM Fault σ α} {P' : α → Prop} {fault' : Fault → Prop} (h : Meets x P fault)
    (h' : Meets x P' fault') : Meets x (fun a => P a ∧ P' a) fault := by
  intro s
  have hx := h s
  have hx' := h' s
  cases hs : x s with
  | ok a t =>
    rw [hs] at hx hx'
    exact ⟨hx, hx'⟩
  | error e t =>
    rw [hs] at hx
    exact hx

theorem weaken {x : EStateM Fault σ α} {fault' : Fault → Prop} (h : Meets x P fault)
    (hf : ∀ e, fault e → fault' e) : Meets x P fault' := by
  intro s
  have hx := h s
  cases hs : x s with
  | ok a t =>
    rw [hs] at hx
    exact hx
  | error e t =>
    rw [hs] at hx
    exact hf e hx

theorem any (x : EStateM Fault σ α) : Meets x (fun _ => True) (fun _ => True) := by
  intro s
  cases x s <;> trivial

theorem attained {x : EStateM Fault σ α} (h : Meets x P fault) :
    Meets x (fun a => ∃ s t, x s = .ok a t) fault := by
  intro s
  have hx := h s
  cases hs : x s with
  | ok a t => exact ⟨s, t, hs⟩
  | error e t =>
    rw [hs] at hx
    exact hx

theorem of_ok {x : EStateM Fault σ α} {s t : σ} {a : α} (h : Meets x P fault)
    (hx : x s = .ok a t) : P a := by
  have hs := h s
  rw [hx] at hs
  exact hs

theorem of_error {x : EStateM Fault σ α} {s t : σ} {e : Fault} (h : Meets x P fault)
    (hx : x s = .error e t) : fault e := by
  have hs := h s
  rw [hx] at hs
  exact hs

end Meets

end SimplexScript
