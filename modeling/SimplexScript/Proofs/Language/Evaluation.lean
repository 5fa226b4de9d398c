import SimplexScript.Language.Eval
import SimplexScript.Proofs.Language.Operators
import SimplexScript.Proofs.Table

/-!
# Invariants of evaluation

What is asked of an expression in its environment may depend on the levels of
calls that are left to it. If the expression passes it on to its parts and, one
level down, to the bodies of the functions that it calls, then every value and
every fault of its evaluation is as asked.
-/

set_option autoImplicit false

namespace SimplexScript

theorem Environment.lookup_yields (env : Environment) (name : String) {fault : Fault → Prop}
    (h : fault (.unboundIdentifier name)) :
    Yields (env.lookup name) (fun v => Table.get? env name = some v) fault := by
  unfold lookup
  split
  next h => exact h
  next => exact h

theorem Value.expectComplex_yields (v : Value) (context : String) {fault : Fault → Prop}
    (h : ∀ expected actual, fault (.typeMismatch expected actual context)) :
    Yields (v.expectComplex context) (fun _ => True) fault := by
  cases v with
  | complex c => trivial
  | _ => exact h _ _

theorem Value.expectInt_yields (v : Value) (context : String) {fault : Fault → Prop}
    (h : ∀ expected actual, fault (.typeMismatch expected actual context)) :
    Yields (v.expectInt context) (fun _ => True) fault := by
  cases v with
  | int a => trivial
  | _ => exact h _ _

theorem State.access_yields (s : State) (a : Number) {fault : Fault → Prop}
    (h : fault (.uninitializedAddress a)) : Yields (s.access a) (fun _ => True) fault := by
  unfold access
  split
  · trivial
  · exact h

theorem Complex.ofVertices_yields (vertices : List String) {fault : Fault → Prop}
    (h : ∀ v, fault (.duplicateVertex v)) :
    Yields (Complex.ofVertices vertices) (fun _ => True) fault := by
  unfold ofVertices
  split
  · exact h _
  · trivial

/-- What is asked of expressions is passed on in their evaluation, and values and faults of the
single steps are as asked. -/
structure Inherited (limit : Number) (s : State) (fit : Nat → Environment → Expr → Prop)
    (good : Value → Prop) (fault : Fault → Prop) : Prop where
  unbound : ∀ x, fault (.unboundIdentifier x)
  notAnOperator : ∀ x, fault (.notAnOperator x)
  notAFunction : ∀ x, fault (.notAFunction x)
  arity : ∀ expected actual x, fault (.arityMismatch expected actual x)
  name : ∀ n env x, fit n env (.ident x) → Meets (evalName env s x) good fault
  literal : ∀ n env vs, fit n env (.complexLit vs) →
    Yields (Complex.ofVertices vs) (fun c => good (.complex c)) fault
  int : ∀ n env a, fit n env (.int a) →
    if a.isSafe then good (.int a) else fault (.integerOverflow "literal" a)
  unknown : ∀ n env, fit n env .unknown → fault .unknownForm
  operand : ∀ n env x args m, fit n env (.opCall x args m) → ∀ e ∈ args, fit n env e
  perform : ∀ n env x args m op vs, fit n env (.opCall x args m) →
    Table.get? env x = some (.operator op) → (∀ v ∈ vs, good v) →
      Meets (op.perform vs m s.vertexOrder) good fault
  argument : ∀ n env x args, fit n env (.funCall x args) → ∀ e ∈ args, fit n env e
  body : ∀ n env x args fn captured vs, fit (n + 1) env (.funCall x args) →
    Table.get? env x = some (.closure fn captured) → (∀ v ∈ vs, good v) →
      fit n (bindParams fn captured vs) fn.body
  deep : ∀ env x args fn captured, fit 0 env (.funCall x args) →
    Table.get? env x = some (.closure fn captured) → fault (.callsTooDeep limit)

namespace Inherited

def Calls (fit : Nat → Environment → Expr → Prop) (good : Value → Prop) (fault : Fault → Prop)
    (n : Nat) (call : Call) : Prop :=
  ∀ env x args fn captured vs, fit n env (.funCall x args) →
    Table.get? env x = some (.closure fn captured) → (∀ v ∈ vs, good v) →
      Meets (call (bindParams fn captured vs) fn.body) good fault

variable {limit : Number} {s : State} {fit : Nat → Environment → Expr → Prop}
  {good : Value → Prop} {fault : Fault → Prop} {n : Nat} {call : Call} {env : Environment}

mutual

theorem evalWith_meets (h : Inherited limit s fit good fault) (hcall : Calls fit good fault n call) :
    ∀ e : Expr, fit n env e → Meets (evalWith call env s e) good fault
  | .ident x, he => by
    rw [evalWith]
    exact h.name n env x he
  | .complexLit vs, he => by
    rw [evalWith]
    exact (Meets.lift (h.literal n env vs he)).bind fun c hc => .pure hc
  | .int a, he => by
    have ha := h.int n env a he
    rw [evalWith]
    split at ha
    next hsafe =>
      rw [if_pos hsafe]
      exact .pure ha
    next hsafe =>
      rw [if_neg hsafe]
      exact .throw ha
  | .opCall x args m, he => by
    rw [evalWith]
    apply Meets.bind (.lift (env.lookup_yields x (h.unbound x)))
    intro v hv
    cases v with
    | operator op =>
      apply (evalArgs_meets h hcall args (h.operand n env x args m he)).bind
      exact fun vs hvs => h.perform n env x args m op vs he hv hvs
    | _ => exact .throw (h.notAnOperator x)
  | .funCall x args, he => by
    rw [evalWith]
    apply Meets.bind (.lift (env.lookup_yields x (h.unbound x)))
    intro v hv
    cases v with
    | closure fn captured =>
      dsimp only
      split
      · apply (evalArgs_meets h hcall args (h.argument n env x args he)).bind
        exact fun vs hvs => hcall env x args fn captured vs he hv hvs
      · exact .throw (h.arity _ _ x)
    | _ => exact .throw (h.notAFunction x)
  | .unknown, he => by
    rw [evalWith]
    exact .throw (h.unknown n env he)

theorem evalArgs_meets (h : Inherited limit s fit good fault) (hcall : Calls fit good fault n call) :
    ∀ es : List Expr, (∀ e ∈ es, fit n env e) →
      Meets (evalArgs call env s es) (fun vs => ∀ v ∈ vs, good v) fault
  | [], _ => by
    rw [evalArgs]
    exact .pure (by simp)
  | e :: es, hes => by
    rw [evalArgs]
    apply (evalWith_meets h hcall e (hes e (by simp))).bind
    intro v hv
    apply (evalArgs_meets h hcall es fun d hd => hes d (by simp [hd])).bind
    intro vs hvs
    exact .pure (List.forall_mem_cons.2 ⟨hv, hvs⟩)

end

theorem callWithin_calls (h : Inherited limit s fit good fault) (n : Nat) :
    Calls fit good fault n (callWithin limit s n) := by
  induction n with
  | zero =>
    intro env x args fn captured vs he hf _
    exact .throw (h.deep env x args fn captured he hf)
  | succ n ih =>
    intro env x args fn captured vs he hf hvs
    exact h.evalWith_meets ih fn.body (h.body n env x args fn captured vs he hf hvs)

theorem within_meets (h : Inherited limit s fit good fault) {e : Expr} (he : fit n env e) :
    Meets (evalWith (callWithin limit s n) env s e) good fault :=
  h.evalWith_meets (h.callWithin_calls n) e he

theorem argsWithin_meets (h : Inherited limit s fit good fault) {es : List Expr}
    (hes : ∀ e ∈ es, fit n env e) :
    Meets (evalArgs (callWithin limit s n) env s es) (fun vs => ∀ v ∈ vs, good v) fault :=
  h.evalArgs_meets (h.callWithin_calls n) es hes

end Inherited

end SimplexScript
