import SimplexScript.Language.State

/-!
# Computations in lockstep

Two computations are run side by side from related sessions. Where the first
has a result the second has a related one, and where the first fails the
second fails with the same fault. Some faults may be excused: after one of
them nothing is said about the second computation, so a comparison that
excuses everything speaks of success alone.
-/

set_option autoImplicit false

namespace SimplexScript

variable {σ α β γ δ : Type}

/-- The second outcome follows the first. -/
inductive Echoes (excused : Fault → Prop) (R : α → β → Prop) :
    Except Fault α → Except Fault β → Prop
  | ok {a : α} {b : β} (h : R a b) : Echoes excused R (.ok a) (.ok b)
  | error (e : Fault) : Echoes excused R (.error e) (.error e)
  | excused {e : Fault} (h : excused e) (y : Except Fault β) : Echoes excused R (.error e) y

inductive Keeps (S : σ → σ → Prop) (excused : Fault → Prop) (R : α → β → Prop) :
    EStateM.Result Fault σ α → EStateM.Result Fault σ β → Prop
  | ok {a : α} {b : β} {s t : σ} (h : R a b) (hs : S s t) : Keeps S excused R (.ok a s) (.ok b t)
  | error (e : Fault) {s t : σ} (hs : S s t) : Keeps S excused R (.error e s) (.error e t)
  | excused {e : Fault} {s : σ} (h : excused e) (y : EStateM.Result Fault σ β) :
      Keeps S excused R (.error e s) y

/-- From related sessions the second computation follows the first. -/
def Follows (S : σ → σ → Prop) (excused : Fault → Prop) (R : α → β → Prop)
    (x : EStateM Fault σ α) (y : EStateM Fault σ β) : Prop :=
  ∀ s t, S s t → Keeps S excused R (x s) (y t)

theorem Echoes.refl (excused : Fault → Prop) (x : Except Fault α) :
    Echoes excused (fun a b => a = b) x x := by
  cases x with
  | ok a => exact .ok rfl
  | error e => exact .error e

theorem Echoes.bind {excused : Fault → Prop} {R : α → β → Prop} {Q : γ → δ → Prop}
    {x : Except Fault α} {y : Except Fault β} {f : α → Except Fault γ} {g : β → Except Fault δ}
    (hx : Echoes excused R x y) (hf : ∀ a b, R a b → Echoes excused Q (f a) (g b)) :
    Echoes excused Q (x >>= f) (y >>= g) := by
  cases hx with
  | ok hab => exact hf _ _ hab
  | error e => exact .error e
  | excused he => exact .excused he _

def Session.Paired (N : Notes → Notes → Prop) (L : Array String → Array String → Prop)
    (σ τ : Session) : Prop := N σ.notes τ.notes ∧ L σ.log τ.log

namespace Follows

variable {S : σ → σ → Prop} {excused : Fault → Prop} {R : α → β → Prop} {Q : γ → δ → Prop}

theorem pure {a : α} {b : β} (h : R a b) :
    Follows S excused R (pure a : EStateM Fault σ α) (pure b) :=
  fun _ _ hs => .ok h hs

theorem throw (e : Fault) : Follows S excused R (throw e : EStateM Fault σ α) (throw e) :=
  fun _ _ hs => .error e hs

theorem excuse {e : Fault} (h : excused e) (y : EStateM Fault σ β) :
    Follows S excused R (throwThe Fault e : EStateM Fault σ α) y :=
  fun _ t _ => .excused h (y t)

theorem bind {x : EStateM Fault σ α} {y : EStateM Fault σ β} {f : α → EStateM Fault σ γ}
    {g : β → EStateM Fault σ δ} (hx : Follows S excused R x y)
    (hf : ∀ a b, R a b → Follows S excused Q (f a) (g b)) :
    Follows S excused Q (x >>= f) (y >>= g) := by
  intro s t hs
  have h := hx s t hs
  simp only [Bind.bind, EStateM.bind]
  generalize x s = r, y t = r' at h
  cases h with
  | ok hab hs' => exact hf _ _ hab _ _ hs'
  | error e hs' => exact .error e hs'
  | excused he => exact .excused he _

theorem lift {x : Except Fault α} {y : Except Fault β} (h : Echoes excused R x y) :
    Follows S excused R (liftM x : EStateM Fault σ α) (liftM y) := by
  intro s t hs
  cases h with
  | ok hab => exact .ok hab hs
  | error e => exact .error e hs
  | excused he => exact .excused he _

theorem silent {N : Notes → Notes → Prop} {L : Array String → Array String → Prop} {x : Noted α}
    {y : Noted β} (h : Follows N excused R x y) :
    Follows (Session.Paired N L) excused R (Traced.silent x) (Traced.silent y) := by
  rintro s t ⟨hn, hl⟩
  have hxy := h s.notes t.notes hn
  simp only [Traced.silent]
  generalize x s.notes = r, y t.notes = r' at hxy
  cases hxy with
  | ok hab hn' => exact .ok hab ⟨hn', hl⟩
  | error e hn' => exact .error e ⟨hn', hl⟩
  | excused he => exact .excused he _

theorem of_ok {x : EStateM Fault σ α} {y : EStateM Fault σ β} {s s' t : σ} {a : α}
    (h : Follows S excused R x y) (hs : S s t) (hx : x s = .ok a s') :
    ∃ b t', y t = .ok b t' ∧ R a b ∧ S s' t' := by
  have hxy := h s t hs
  rw [hx] at hxy
  generalize y t = r at hxy
  cases hxy with
  | ok hab hs' => exact ⟨_, _, rfl, hab, hs'⟩

theorem of_error {x : EStateM Fault σ α} {y : EStateM Fault σ β} {s s' t : σ} {e : Fault}
    (h : Follows S excused R x y) (hs : S s t) (hx : x s = .error e s') (he : ¬ excused e) :
    ∃ t', y t = .error e t' ∧ S s' t' := by
  have hxy := h s t hs
  rw [hx] at hxy
  generalize y t = r at hxy
  cases hxy with
  | error _ hs' => exact ⟨_, rfl, hs'⟩
  | excused h' => exact absurd h' he

end Follows

end SimplexScript
