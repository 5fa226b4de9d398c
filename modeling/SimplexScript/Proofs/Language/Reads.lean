import SimplexScript.Proofs.Language.Coupling
import SimplexScript.Proofs.Language.StoreSafety

/-!
# What expressions read

An expression looks up the names written in it. From there it gets to the
addresses that these names stand for and to those that their functions
captured, however deep, and to the order of vertices. Two configurations that
agree on all this are one to the expression, whatever else they hold.
-/

set_option autoImplicit false

namespace SimplexScript

def State.AgreeAt (s s' : State) (a : Number) : Prop :=
  Table.get? s.store a = Table.get? s'.store a

theorem State.AgreeAt.access {s s' : State} {a : Number} (h : s.AgreeAt s' a) :
    s.access a = s'.access a := by
  rw [State.AgreeAt] at h
  rw [State.access, State.access, h]

/-- Both sides have the same values under a name, and their states agree wherever these values lead.
Nothing is excused. -/
def Coupling.reading (s s' : State) : Coupling where
  bound _ v v' := v = v' ∧ ∀ a, v.Holds a → s.AgreeAt s' a
  address a a' := a = a' ∧ s.AgreeAt s' a
  applied _ := True
  picks := True
  notes _ := True
  excused _ := False

namespace Coupling

variable {s s' : State}

theorem reading_captured {fn : Function} {env : Environment}
    (h : ∀ a, (Value.closure fn env).Holds a → s.AgreeAt s' a) (y : String) :
    (reading s s').Sees env env y := by
  unfold Sees
  cases hy : Table.get? env y with
  | none => exact .none
  | some v =>
    apply Option.Rel.some
    refine ⟨rfl, ?_⟩
    intro a ha
    exact h a (.captured (Table.mem_of_get? hy) ha)

theorem reading_lawful (horder : s.vertexOrder = s'.vertexOrder) :
    (reading s s').Lawful s s' where
  alike := by
    rintro x v _ ⟨rfl, hv⟩
    cases v with
    | complex c => exact .complex c
    | int a => exact .int a
    | closure fn env => exact .closure (fun _ _ => trivial) (reading_captured hv)
    | loc a => exact .loc ⟨rfl, hv a (.loc a)⟩
    | vertex w => exact .vertex w
    | operator op => exact .operator fun _ _ => trivial
  complex x c := by
    refine ⟨rfl, ?_⟩
    intro a ha
    cases ha
  int x a := by
    refine ⟨rfl, ?_⟩
    intro b hb
    cases hb
  closure _ _ _ _ _ _ h := h
  access := by
    rintro a _ ⟨rfl, ha⟩
    rw [ha.access]
    exact .refl _ _
  order _ := horder
  learn _ _ _ _ _ := trivial

theorem reading_eq {x y : Noted Value}
    (h : Follows (reading s s').SameNotes (reading s s').excused (reading s s').Values x y)
    (n : Notes) : x n = y n := by
  have hn := h n n ⟨rfl, trivial⟩
  generalize x n = r, y n = r' at hn
  cases hn with
  | ok hv hs => rw [(hv "").1, hs.1]
  | error f hs => rw [hs.1]
  | excused hf => exact hf.elim

end Coupling

/-- An expression has the same value, or ends in the same fault, in two environments that bind its
names alike, over states with one order of vertices that agree at the addresses to which these names
lead, at whatever depth of calls it is evaluated. -/
theorem eval_of_agreement {env env' : Environment} {s s' : State} {e : Expr}
    (henv : ∀ x ∈ e.names, Table.get? env x = Table.get? env' x)
    (horder : s.vertexOrder = s'.vertexOrder)
    (hstore : ∀ x ∈ e.names, ∀ v, Table.get? env x = some v → ∀ a, v.Holds a → s.AgreeAt s' a)
    (limit : Number) (n : Notes) :
    eval limit env s e n = eval limit env' s' e n ∧
    ∀ levels, evalWith (callWithin limit s levels) env s e n =
      evalWith (callWithin limit s' levels) env' s' e n := by
  have hC := Coupling.reading_lawful horder
  have hsees : ∀ x ∈ e.names, (Coupling.reading s s').Sees env env' x := by
    intro x hx
    unfold Coupling.Sees
    rw [← henv x hx]
    cases hv : Table.get? env x with
    | none => exact .none
    | some v => exact .some ⟨rfl, hstore x hx v hv⟩
  constructor
  · apply Coupling.reading_eq
    exact Coupling.eval_follows hC (Nat.le_refl _) (.inr rfl) hsees fun _ _ => trivial
  · intro levels
    apply Coupling.reading_eq
    have hcalls : (Coupling.reading s s').Calls (callWithin limit s levels)
        (callWithin limit s' levels) :=
      Coupling.callWithin_follows hC (Nat.le_refl levels) (.inr ⟨rfl, rfl⟩)
    exact Coupling.evalWith_follows hC hcalls e hsees fun _ _ => trivial

/-- A call whose function captured one variable, with another variable assigned on one side. -/
theorem eval_of_agreement_captured :
    let captured : Environment := Table.set Environment.initial "A" (.loc (.ofInt 0))
    let fn : Function := ⟨"f", ["x"], .opCall "union" [.ident "A", .ident "x"] none⟩
    let env := Table.set captured "f" (.closure fn captured)
    let env' := Table.set env "B" (.loc (.ofInt 1))
    let s : State := ⟨[(.ofInt 0, .point "a"), (.ofInt 1, .point "b")], .ofInt 2, [], .zero⟩
    let s' := { s with store := [(.ofInt 0, .point "a"), (.ofInt 1, .point "c")] }
    let e := Expr.funCall "f" [.complexLit ["d"]]
    s.store ≠ s'.store ∧ ∃ c n, eval (.ofInt 1) env s e .empty = .ok (.complex c) n ∧
      c.maximal = [["a"], ["d"]] ∧ eval (.ofInt 1) env' s' e .empty = .ok (.complex c) n := by
  intro captured fn env env' s s' e
  have henv : ∀ x ∈ e.names, Table.get? env x = Table.get? env' x := by
    intro x hx
    have hB : ¬ "B" = x := by
      rintro rfl
      revert hx
      decide
    simp only [env', Table.get?_set, hB, if_false]
  have hstore : ∀ x ∈ e.names, ∀ v, Table.get? env x = some v → ∀ a, v.Holds a →
      s.AgreeAt s' a := by
    intro x hx v hv a ha
    obtain rfl : x = "f" := by simpa [e, Expr.names, Expr.namesOfAll] using hx
    obtain rfl : Value.closure fn captured = v := by
      simpa only [env, Table.get?_set, if_true, Option.some.injEq] using hv
    cases ha with
    | captured hmem h =>
      rcases Table.mem_set hmem with he | he
      · cases he
        cases h
        simp [State.AgreeAt, s, s', Table.get?]
      · have hop := Discipline.accepts_initial ⟨fun _ => True, fun _ => False, fun _ => True,
          fun _ => True, fun _ => True⟩ _ he
        exact (Discipline.Accepts.address_of_holds h hop).elim
  have horder : s.vertexOrder = s'.vertexOrder := rfl
  have hne : s.store ≠ s'.store := by
    intro h
    have hb := congrArg (fun t => (Table.get? t (.ofInt 1)).map Complex.maximal) h
    revert hb
    decide
  have hok : resultPasses (fun v => (v.expectComplex "").toOption.map Complex.maximal ==
      some [["a"], ["d"]]) (eval (.ofInt 1) env s e .empty) = true := by decide +kernel
  clear_value env env' s s' e
  have heq := (eval_of_agreement henv horder hstore (.ofInt 1) .empty).1
  obtain ⟨v, n, h, hv⟩ := exists_of_resultPasses hok
  cases v with
  | complex c => exact ⟨hne, c, n, h, Option.some.inj (eq_of_beq hv), heq ▸ h⟩
  | _ => cases hv

end SimplexScript
