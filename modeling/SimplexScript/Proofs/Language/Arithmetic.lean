import SimplexScript.Proofs.Language.Evaluation
import SimplexScript.Proofs.Number.Exact

/-!
# Integer expressions

An arithmetic rule gives the exact result on integers, rounded to a number,
and passes it on only if that number is a safe integer. Rounding neither moves
a safe integer nor leads another integer among them, so the check on the
rounded result is a check on the exact one. By induction on the tree, an
integer expression is exact or ends in an overflow.
-/

set_option autoImplicit false

namespace SimplexScript

namespace Arithmetic

def name : Arithmetic → String
  | add => "add"
  | sub => "sub"
  | mul => "mul"
  | and => "and"
  | or => "or"
  | not => "not"
  | greater => "greater"
  | less => "less"
  | leq => "leq"
  | geq => "geq"

theorem get?_standard (rule : Arithmetic) :
    Table.get? Registry.standard rule.name = some ⟨rule.name, .compute rule⟩ := by
  cases rule <;> rfl

/-- The exact result of a rule on as many integers as it takes. Truth is one, falsity zero. -/
def exact : Arithmetic → List Int → Int
  | add, [a, b] => a + b
  | sub, [a, b] => a - b
  | mul, [a, b] => a * b
  | and, [a, b] => if a ≠ 0 ∧ b ≠ 0 then 1 else 0
  | or, [a, b] => if a ≠ 0 ∨ b ≠ 0 then 1 else 0
  | not, [a] => if a = 0 then 1 else 0
  | greater, [a, b] => if a > b then 1 else 0
  | less, [a, b] => if a < b then 1 else 0
  | leq, [a, b] => if a ≤ b then 1 else 0
  | geq, [a, b] => if a ≥ b then 1 else 0
  | _, _ => 0

theorem isTrue_ofInt (z : Int) : isTrue (.ofInt z) = decide (z ≠ 0) := by
  rw [isTrue, Number.zero, ← decide_not]
  exact decide_eq_decide.2 (not_congr Number.ofInt_inj)

theorem truth_eq_round {b : Bool} {P : Prop} [Decidable P] (h : b = true ↔ P) :
    truth b = .round (Rat.ofInt (if P then 1 else 0)) := by
  by_cases hP : P
  · rw [if_pos hP, h.2 hP, Number.round_ofInt (by decide)]
    rfl
  · rw [if_neg hP, Bool.eq_false_iff.2 (mt h.1 hP), Number.round_ofInt (by decide)]
    rfl

theorem compute_ofInt (rule : Arithmetic) {args : List Int} (h : args.length = rule.arity) :
    rule.compute (args.map .ofInt) = .round (Rat.ofInt (rule.exact args)) := by
  match rule, args, h with
  | add, [a, b], _ => exact congrArg Number.round Number.ofInt_add
  | sub, [a, b], _ =>
    have hsub : Rat.ofInt a + -Rat.ofInt b = Rat.ofInt (a - b) := by
      rw [Number.ofInt_neg, Number.ofInt_add, Int.sub_eq_add_neg]
    exact congrArg Number.round hsub
  | mul, [a, b], _ => exact congrArg Number.round Number.ofInt_mul
  | and, [a, b], _ => exact truth_eq_round (by simp [isTrue_ofInt])
  | or, [a, b], _ => exact truth_eq_round (by simp [isTrue_ofInt])
  | not, [a], _ => exact truth_eq_round (by simp [isTrue_ofInt])
  | greater, [a, b], _ => exact truth_eq_round Number.lt_ofInt
  | less, [a, b], _ => exact truth_eq_round Number.lt_ofInt
  | leq, [a, b], _ => exact truth_eq_round Number.le_ofInt
  | geq, [a, b], _ => exact truth_eq_round Number.le_ofInt

end Arithmetic

def SafeInt (z : Int) : Prop := -(2 ^ 53 - 1) ≤ z ∧ z ≤ 2 ^ 53 - 1

instance (z : Int) : Decidable (SafeInt z) := inferInstanceAs (Decidable (_ ∧ _))

theorem safeInt_iff {z : Int} : SafeInt z ↔ z.natAbs < 2 ^ 53 := by
  unfold SafeInt
  omega

/-- Integer literals and arithmetic rules, each rule with as many operands as it takes. -/
inductive IntTree where
  | literal (z : Int)
  | node (rule : Arithmetic) (operands : Fin rule.arity → IntTree)

namespace IntTree

def toExpr : IntTree → Expr
  | literal z => .int (.ofInt z)
  | node rule operands => .opCall rule.name (List.ofFn fun i => (operands i).toExpr) none

def value : IntTree → Int
  | literal z => z
  | node rule operands => rule.exact (List.ofFn fun i => (operands i).value)

/-- All literals and all values on the way, the last included, are safe integers. -/
def Safe : IntTree → Prop
  | literal z => SafeInt z
  | node rule operands => (∀ i, (operands i).Safe) ∧ SafeInt (node rule operands).value

instance decidableSafe : (t : IntTree) → Decidable t.Safe
  | literal z => inferInstanceAs (Decidable (SafeInt z))
  | node _ operands =>
    have := fun i => decidableSafe (operands i)
    inferInstanceAs (Decidable (_ ∧ _))

end IntTree

section Evaluation

variable {call : Call} {env : Environment} {s : State}

theorem evalArgs_ofFn {n : Nat} {es : Fin n → Expr} {vs : Fin n → Value} {safe : Fin n → Prop}
    {fault : Fault → Prop} (h : ∀ i, Meets (evalWith call env s (es i))
      (fun v => safe i ∧ v = vs i) (fun f => ¬ safe i ∧ fault f)) :
    Meets (evalArgs call env s (List.ofFn es)) (fun ws => (∀ i, safe i) ∧ ws = List.ofFn vs)
      (fun f => (¬ ∀ i, safe i) ∧ fault f) := by
  induction n with
  | zero =>
    rw [List.ofFn_zero, evalArgs]
    exact .pure ⟨fun i => i.elim0, by simp⟩
  | succ n ih =>
    rw [List.ofFn_succ, evalArgs]
    apply Meets.bind ((h 0).weaken fun f hf => ⟨fun hall => hf.1 (hall 0), hf.2⟩)
    rintro v ⟨hv, rfl⟩
    have hrest := ih fun i => h i.succ
    apply Meets.bind (hrest.weaken fun f hf => ⟨fun hall => hf.1 fun i => hall i.succ, hf.2⟩)
    rintro ws ⟨hws, rfl⟩
    exact .pure ⟨Fin.cases hv hws, by rw [List.ofFn_succ]⟩

theorem Operator.numbers_ofInt (op : Operator) (zs : List Int) :
    op.numbers (zs.map fun z => .int (.ofInt z)) = .ok (zs.map .ofInt) := by
  induction zs with
  | nil => rfl
  | cons z zs ih =>
    rw [List.map_cons, numbers, ih]
    rfl

theorem perform_compute (rule : Arithmetic) {zs : List Int} (h : zs.length = rule.arity)
    (order : Table String Number) :
    Meets (Operator.perform ⟨rule.name, .compute rule⟩ (zs.map fun z => .int (.ofInt z)) none
        order)
      (fun v => SafeInt (rule.exact zs) ∧ v = .int (.ofInt (rule.exact zs)))
      (fun f => ¬ SafeInt (rule.exact zs) ∧ f.code = some .integerOverflow) := by
  intro n
  have hviewed : (zs.map fun z => Value.int (.ofInt z)).map (Value.viewed n) =
      zs.map fun z => .int (.ofInt z) := by
    simp [Value.viewed]
  have happly : Operator.apply ⟨rule.name, .compute rule⟩ (zs.map fun z => .int (.ofInt z)) none
      order = if (Number.round (Rat.ofInt (rule.exact zs))).isSafe
        then .ok (.int (.round (Rat.ofInt (rule.exact zs))))
        else .error (.integerOverflow rule.name (.round (Rat.ofInt (rule.exact zs)))) := by
    simp only [Operator.apply, Operator.rejectMapping, List.length_map, h, if_true,
      Operator.numbers_ofInt, bind, Except.bind, rule.compute_ofInt h]
    rfl
  simp only [Operator.perform, hviewed, happly]
  by_cases hsafe : (rule.exact zs).natAbs < 2 ^ 53
  · rw [if_pos (Number.isSafe_round.2 hsafe), Number.round_ofInt (by omega)]
    exact ⟨safeInt_iff.2 hsafe, rfl⟩
  · rw [if_neg (mt Number.isSafe_round.1 hsafe)]
    exact ⟨mt safeInt_iff.1 hsafe, rfl⟩

theorem evalWith_intTree (henv : ∀ rule : Arithmetic,
      Table.get? env rule.name = (Table.get? Registry.standard rule.name).map .operator) :
    ∀ t : IntTree, Meets (evalWith call env s t.toExpr)
      (fun v => t.Safe ∧ v = .int (.ofInt t.value))
      (fun f => ¬ t.Safe ∧ f.code = some .integerOverflow) := by
  intro t
  induction t with
  | literal z =>
    rw [IntTree.toExpr, evalWith]
    have hsafe : (Number.ofInt z).isSafe = true ↔ SafeInt z :=
      Number.isSafe_ofInt.trans safeInt_iff.symm
    by_cases hz : (Number.ofInt z).isSafe = true
    · rw [if_pos hz]
      exact .pure ⟨hsafe.1 hz, rfl⟩
    · rw [if_neg hz]
      exact .throw ⟨mt hsafe.2 hz, rfl⟩
  | node rule operands ih =>
    have hlookup : Yields (env.lookup rule.name)
        (fun v => v = .operator ⟨rule.name, .compute rule⟩) (fun f =>
          ¬ (IntTree.node rule operands).Safe ∧ f.code = some .integerOverflow) := by
      rw [Environment.lookup, henv rule, rule.get?_standard]
      exact rfl
    rw [IntTree.toExpr, evalWith]
    apply Meets.bind (.lift hlookup)
    rintro v rfl
    dsimp only
    apply Meets.bind ((evalArgs_ofFn ih).weaken fun f hf => ⟨fun hs => hf.1 hs.1, hf.2⟩)
    rintro ws ⟨hall, rfl⟩
    have hlen : (List.ofFn fun i => (operands i).value).length = rule.arity := List.length_ofFn
    have hmap : (List.ofFn fun i => Value.int (.ofInt (operands i).value)) =
        (List.ofFn fun i => (operands i).value).map fun z => .int (.ofInt z) := by
      rw [List.map_ofFn]
      rfl
    rw [hmap]
    apply ((perform_compute rule hlen s.vertexOrder).weaken _).mono
    · rintro v ⟨hsafe, rfl⟩
      exact ⟨⟨hall, hsafe⟩, rfl⟩
    · exact fun f hf => ⟨fun hs => hf.1 hs.2, hf.2⟩

end Evaluation

/-- Where the names of the arithmetic rules stand for the standard operators, an integer expression
has its exact value if all literals and all values on the way are safe integers, and ends in an
overflow otherwise. It never has another value. -/
theorem integer_expressions_exact (t : IntTree) {env : Environment} (henv : ∀ rule : Arithmetic,
      Table.get? env rule.name = (Table.get? Registry.standard rule.name).map .operator)
    (maxCallDepth : Number) (s : State) (n : Notes) :
    (t.Safe → ∃ m, eval maxCallDepth env s t.toExpr n = .ok (.int (.ofInt t.value)) m) ∧
    (¬ t.Safe → ∃ f m, eval maxCallDepth env s t.toExpr n = .error f m ∧
      f.code = some .integerOverflow) ∧
    ∀ v m, eval maxCallDepth env s t.toExpr n = .ok v m → v = .int (.ofInt t.value) := by
  have h : Meets (eval maxCallDepth env s t.toExpr) _ _ := evalWith_intTree henv t
  cases hresult : eval maxCallDepth env s t.toExpr n with
  | ok v m =>
    obtain ⟨hsafe, rfl⟩ := h.of_ok hresult
    refine ⟨fun _ => ⟨m, rfl⟩, fun hfails => absurd hsafe hfails, ?_⟩
    intro w _ hw
    cases hw
    rfl
  | error f m =>
    obtain ⟨hfails, hcode⟩ := h.of_error hresult
    refine ⟨fun hsafe => absurd hsafe hfails, fun _ => ⟨f, m, rfl, hcode⟩, ?_⟩
    intro w _ hw
    cases hw

/-- The product of two neighbours is a safe integer, the next square is not, and neither is a sum
that comes back into range. -/
theorem integer_expressions_exact_products :
    let mul (a b : Int) : IntTree := .node .mul fun i => .literal (if i.1 = 0 then a else b)
    let product := mul 94906266 94906265
    let square := mul 94906266 94906266
    let sum : IntTree := .node .add fun i => .literal (if i.1 = 0 then 2 ^ 53 - 1 else 2)
    let back : IntTree := .node .sub fun i => if i.1 = 0 then sum else .literal 2
    (product.Safe ∧ ∃ n, eval (.ofInt 100) Environment.initial .empty product.toExpr .empty =
      .ok (.int (.ofInt 9007199231156490)) n) ∧
    (¬ square.Safe ∧ ∃ f n, eval (.ofInt 100) Environment.initial .empty square.toExpr .empty =
      .error f n ∧ f.code = some .integerOverflow) ∧
    ¬ back.Safe ∧ SafeInt back.value ∧ ∃ f n,
      eval (.ofInt 100) Environment.initial .empty back.toExpr .empty = .error f n ∧
        f.code = some .integerOverflow := by
  intro mul product square sum back
  have henv : ∀ rule : Arithmetic, Table.get? Environment.initial rule.name =
      (Table.get? Registry.standard rule.name).map .operator := by
    intro rule
    cases rule <;> rfl
  have hproduct : product.Safe := by decide
  have hsquare : ¬ square.Safe := by decide
  have hback : ¬ back.Safe := by decide
  exact ⟨⟨hproduct, (integer_expressions_exact product henv _ _ _).1 hproduct⟩,
    ⟨hsquare, (integer_expressions_exact square henv _ _ _).2.1 hsquare⟩,
    hback, by decide, (integer_expressions_exact back henv _ _ _).2.1 hback⟩

end SimplexScript
