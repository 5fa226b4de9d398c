import Mathlib.Data.List.Forall2
import SimplexScript.Language.Eval
import SimplexScript.Proofs.Language.Lockstep
import SimplexScript.Proofs.Language.Outcome

/-!
# Coupled evaluations

One expression is evaluated twice, in two environments and two states. A
coupling says which values may stand under one name on the two sides. If its
values look alike, down to the environments that functions captured, and the
states answer alike where it ties their addresses, then the two evaluations
go in lockstep, at every depth of calls.
-/

set_option autoImplicit false

namespace SimplexScript

namespace Expr

mutual

def names : Expr → List String
  | .ident name => [name]
  | .opCall op args _ => op :: namesOfAll args
  | .funCall name args => name :: namesOfAll args
  | _ => []

def namesOfAll : List Expr → List String
  | [] => []
  | e :: es => e.names ++ namesOfAll es

end

mutual

def operators : Expr → List String
  | .opCall op args _ => op :: operatorsOfAll args
  | .funCall _ args => operatorsOfAll args
  | _ => []

def operatorsOfAll : List Expr → List String
  | [] => []
  | e :: es => e.operators ++ operatorsOfAll es

end

end Expr

section Outline

/-- A value without what no operator looks at: the inside of a function and the number of an
address. -/
def Value.outline : Value → Value
  | .closure _ _ => .closure ⟨"", [], .unknown⟩ []
  | .loc _ => .loc .zero
  | v => v

variable (op : Operator) (args : List Value) (mapping : Option Complex.Mapping)
  (order : Table String Number)

@[simp] theorem Value.expectComplex_outline (context : String) (v : Value) :
    v.outline.expectComplex context = v.expectComplex context := by
  cases v <;> rfl

@[simp] theorem Value.expectInt_outline (context : String) (v : Value) :
    v.outline.expectInt context = v.expectInt context := by
  cases v <;> rfl

@[simp] theorem Value.viewed_outline (n : Notes) (v : Value) :
    v.outline.viewed n = (v.viewed n).outline := by
  cases v <;> rfl

namespace Operator

@[simp] theorem complexes_outline : op.complexes (args.map Value.outline) = op.complexes args := by
  induction args with
  | nil => rfl
  | cons v vs ih => simp [complexes, ih]

@[simp] theorem numbers_outline : op.numbers (args.map Value.outline) = op.numbers args := by
  induction args with
  | nil => rfl
  | cons v vs ih => simp [numbers, ih]

theorem apply_outline :
    op.apply (args.map Value.outline) mapping order = op.apply args mapping order := by
  unfold apply
  cases op.rule with
  | glue =>
    cases mapping with
    | none => rfl
    | some m =>
      match args with
      | [] => rfl
      | [a] => simp [arity]
      | [a, b] => simp
      | a :: b :: c :: rest => simp [arity]
  | pick =>
    match args with
    | [] => rfl
    | [a] => simp
    | a :: b :: rest => simp [arity]
  | fold f => simp
  | observe o =>
    match args with
    | [] => rfl
    | a :: rest => simp [arity]
  | compute a => simp [arity]

theorem learnFrom_outline (n : Notes) :
    op.learnFrom (args.map Value.outline) order n = op.learnFrom args order n := by
  unfold learnFrom
  cases op.rule with
  | pick =>
    match args with
    | [] => rfl
    | [a] => cases a <;> rfl
    | a :: b :: rest => simp
  | _ => rfl

theorem perform_outline :
    op.perform (args.map Value.outline) mapping order = op.perform args mapping order := by
  funext n
  have hknown : (args.map Value.outline).map (Value.viewed n) =
      (args.map (Value.viewed n)).map Value.outline := by simp
  simp only [perform, hknown, apply_outline, learnFrom_outline]

/-- Only picking reads the order. -/
theorem perform_order (h : op.rule ≠ .pick) (order' : Table String Number) :
    op.perform args mapping order = op.perform args mapping order' := by
  funext n
  unfold perform apply learnFrom
  cases hr : op.rule with
  | pick => exact absurd hr h
  | _ => rfl

theorem apply_plain : Yields (op.apply args mapping order)
    (fun v => v.isComplex = true ∨ v.isInt = true) (fun _ => True) := by
  unfold apply
  cases op.rule with
  | glue =>
    cases mapping with
    | none => trivial
    | some m =>
      match args with
      | [] => trivial
      | [a] => trivial
      | [a, b] =>
        exact (Yields.any _).bind fun _ _ => (Yields.any _).bind fun _ _ =>
          (Yields.any _).bind fun _ _ => .inl rfl
      | a :: b :: c :: rest => trivial
  | pick =>
    apply (Yields.any _).bind
    intro _ _
    match args with
    | [] => trivial
    | [a] => exact (Yields.any _).bind fun _ _ => (Yields.any _).bind fun _ _ => .inl rfl
    | a :: b :: rest => trivial
  | fold f =>
    apply (Yields.any _).bind
    intro _ _
    apply (Yields.any _).bind
    intro cs _
    cases cs with
    | nil => trivial
    | cons c rest => exact (Yields.any _).bind fun _ _ => .inl rfl
  | observe o =>
    apply (Yields.any _).bind
    intro _ _
    split
    · cases args with
      | nil => trivial
      | cons a rest =>
        exact (Yields.any _).bind fun _ _ => (Yields.any _).bind fun _ _ =>
          (Yields.any _).bind fun _ _ => .inr rfl
    · trivial
  | compute a =>
    apply (Yields.any _).bind
    intro _ _
    split
    · apply (Yields.any _).bind
      intro ks _
      dsimp only
      split
      · exact .inr rfl
      · trivial
    · trivial

end Operator

end Outline

/-- Which values may stand under one name on the two sides, which addresses are tied, under which
names operators are applied, whether they may pick, on which notes, and which faults are excused. -/
structure Coupling where
  bound : String → Value → Value → Prop
  address : Number → Number → Prop
  applied : String → Prop
  picks : Prop
  notes : Notes → Prop
  excused : Fault → Prop

namespace Coupling

def Sees (C : Coupling) (env env' : Environment) (x : String) : Prop :=
  Option.Rel (C.bound x) (Table.get? env x) (Table.get? env' x)

def Values (C : Coupling) (v v' : Value) : Prop := ∀ x, C.bound x v v'

def SameNotes (C : Coupling) (m n : Notes) : Prop := m = n ∧ C.notes m

/-- Two values of one kind that differ in tied addresses and in what functions captured only. -/
inductive Alike (C : Coupling) (x : String) : Value → Value → Prop
  | complex (c : Complex) : Alike C x (.complex c) (.complex c)
  | int (a : Number) : Alike C x (.int a) (.int a)
  | closure {fn : Function} {env env' : Environment}
      (hbody : ∀ op ∈ fn.body.operators, C.applied op) (henv : ∀ y, C.Sees env env' y) :
      Alike C x (.closure fn env) (.closure fn env')
  | loc {a a' : Number} (h : C.address a a') : Alike C x (.loc a) (.loc a')
  | vertex (v : String) : Alike C x (.vertex v) (.vertex v)
  | operator {op : Operator} (h : C.applied x → op.rule = .pick → C.picks) :
      Alike C x (.operator op) (.operator op)

/-- Coupled values look alike, and two states answer alike where a coupling asks them. -/
structure Lawful (C : Coupling) (s s' : State) : Prop where
  alike : ∀ x v v', C.bound x v v' → C.Alike x v v'
  complex : ∀ x c, C.bound x (.complex c) (.complex c)
  int : ∀ x a, C.bound x (.int a) (.int a)
  closure : ∀ x y fn env fn' env', C.bound x (.closure fn env) (.closure fn' env') →
    C.bound y (.closure fn env) (.closure fn' env')
  access : ∀ a a', C.address a a' →
    Echoes C.excused (fun c d => c = d) (s.access a) (s'.access a')
  order : C.picks → s.vertexOrder = s'.vertexOrder
  learn : C.picks → ∀ n c v, C.notes n → C.notes (n.learn c v)

section Lookup

variable {C : Coupling} {env env' : Environment}

theorem sees_iff {x : String} : C.Sees env env' x ↔
    ((Table.get? env x).isSome = (Table.get? env' x).isSome ∧
      ∀ v v', Table.get? env x = some v → Table.get? env' x = some v' → C.bound x v v') := by
  unfold Sees
  generalize Table.get? env x = v, Table.get? env' x = v'
  cases v <;> cases v' <;> simp

theorem Sees.lookup {x : String} (h : C.Sees env env' x) :
    Echoes C.excused (C.bound x) (env.lookup x) (env'.lookup x) := by
  unfold Sees at h
  unfold Environment.lookup
  generalize Table.get? env x = v, Table.get? env' x = v' at h
  cases h with
  | some hv => exact .ok hv
  | none => exact .error _

theorem Sees.set {x name : String} {v v' : Value} (h : C.Sees env env' x)
    (hv : C.bound name v v') : C.Sees (Table.set env name v) (Table.set env' name v') x := by
  unfold Sees
  rw [Table.get?_set, Table.get?_set]
  split
  next hx =>
    subst hx
    exact .some hv
  next => exact h

theorem sees_bindParams (fn : Function) {args args' : List Value} (henv : ∀ x, C.Sees env env' x)
    (hargs : List.Forall₂ C.Values args args') :
    ∀ x, C.Sees (bindParams fn env args) (bindParams fn env' args') x := by
  unfold bindParams Table.setAll
  generalize fn.params = params
  induction hargs generalizing params env env' with
  | nil => simpa using henv
  | cons hv _ ih =>
    cases params with
    | nil => simpa using henv
    | cons p params => exact ih (fun x => (henv x).set (hv p)) params

end Lookup

section Evaluation

variable {C : Coupling} {s s' : State}

theorem Lawful.outline (hC : C.Lawful s s') {v v' : Value} (h : C.Values v v') :
    v.outline = v'.outline := by
  cases hC.alike "" v v' (h "") with
  | _ => rfl

theorem Lawful.map_outline (hC : C.Lawful s s') {args args' : List Value}
    (h : List.Forall₂ C.Values args args') : args.map Value.outline = args'.map Value.outline := by
  induction h with
  | nil => rfl
  | cons hv _ ih => rw [List.map_cons, List.map_cons, hC.outline hv, ih]

theorem Lawful.plain (hC : C.Lawful s s') {v : Value} (h : v.isComplex = true ∨ v.isInt = true) :
    C.Values v v := by
  intro x
  cases v with
  | complex c => exact hC.complex x c
  | int a => exact hC.int x a
  | _ => simp [Value.isComplex, Value.isInt] at h

theorem notes_learnFrom {op : Operator} (hlearn : op.rule = .pick → ∀ n c v, C.notes n →
    C.notes (n.learn c v)) (args : List Value) (order : Table String Number) {n : Notes}
    (hn : C.notes n) : C.notes (op.learnFrom args order n) := by
  unfold Operator.learnFrom
  split
  next c hr =>
    split
    · exact hlearn hr n c _ hn
    · exact hn
  next => exact hn

theorem perform_follows (hC : C.Lawful s s') {op : Operator} (hpick : op.rule = .pick → C.picks)
    {args args' : List Value} (mapping : Option Complex.Mapping)
    (h : List.Forall₂ C.Values args args') :
    Follows C.SameNotes C.excused C.Values (op.perform args mapping s.vertexOrder)
      (op.perform args' mapping s'.vertexOrder) := by
  have horder : op.perform args' mapping s'.vertexOrder =
      op.perform args' mapping s.vertexOrder := by
    by_cases hr : op.rule = .pick
    · rw [hC.order (hpick hr)]
    · exact op.perform_order _ _ _ hr _
  rw [horder, ← op.perform_outline args, ← op.perform_outline args', hC.map_outline h]
  rintro n m ⟨rfl, hn⟩
  have hplain := op.apply_plain ((args'.map Value.outline).map (Value.viewed n)) mapping
    s.vertexOrder
  unfold Operator.perform
  dsimp only
  generalize op.apply _ mapping s.vertexOrder = r at hplain
  cases r with
  | ok v =>
    have hlearn : op.rule = .pick → ∀ n c v, C.notes n → C.notes (n.learn c v) :=
      fun hr => hC.learn (hpick hr)
    exact .ok (hC.plain hplain) ⟨rfl, notes_learnFrom hlearn _ _ hn⟩
  | error e => exact .error e ⟨rfl, hn⟩

theorem evalName_follows (hC : C.Lawful s s') {env env' : Environment} {name : String}
    (h : C.Sees env env' name) :
    Follows C.SameNotes C.excused C.Values (evalName env s name) (evalName env' s' name) := by
  apply Follows.bind (.lift h.lookup)
  intro v v' hv
  cases hC.alike _ _ _ hv with
  | complex c => exact .pure fun x => hC.complex x c
  | int a => exact .pure fun x => hC.int x a
  | closure _ _ => exact .pure fun x => hC.closure _ x _ _ _ _ hv
  | loc ha =>
    apply Follows.bind (.lift (hC.access _ _ ha))
    rintro c d rfl
    exact .pure fun x => hC.complex x c
  | vertex w => exact .pure fun x => hC.complex x _
  | operator _ => exact .throw _

def Calls (C : Coupling) (call call' : Call) : Prop :=
  ∀ env env' body, (∀ x, C.Sees env env' x) → (∀ op ∈ body.operators, C.applied op) →
    Follows C.SameNotes C.excused C.Values (call env body) (call' env' body)

mutual

theorem evalWith_follows (hC : C.Lawful s s') {call call' : Call} (hcall : C.Calls call call')
    {env env' : Environment} : ∀ e : Expr, (∀ x ∈ e.names, C.Sees env env' x) →
      (∀ op ∈ e.operators, C.applied op) →
      Follows C.SameNotes C.excused C.Values (evalWith call env s e) (evalWith call' env' s' e)
  | .ident name, hn, _ => by
    rw [evalWith, evalWith]
    exact evalName_follows hC (hn name (by simp [Expr.names]))
  | .complexLit vertices, _, _ => by
    rw [evalWith, evalWith]
    apply Follows.bind (.lift (.refl _ _))
    rintro c d rfl
    exact .pure fun x => hC.complex x c
  | .int a, _, _ => by
    rw [evalWith, evalWith]
    split
    · exact .pure fun x => hC.int x a
    · exact .throw _
  | .opCall op args mapping, hn, ho => by
    rw [evalWith, evalWith]
    simp only [Expr.names, Expr.operators, List.mem_cons, forall_eq_or_imp] at hn ho
    apply Follows.bind (.lift hn.1.lookup)
    intro v v' hv
    cases hC.alike _ _ _ hv with
    | operator hpick =>
      apply (evalArgs_follows hC hcall args hn.2 ho.2).bind
      exact fun vs vs' hvs => perform_follows hC (hpick ho.1) mapping hvs
    | _ => exact .throw _
  | .funCall name args, hn, ho => by
    rw [evalWith, evalWith]
    simp only [Expr.names, Expr.operators, List.mem_cons, forall_eq_or_imp] at hn ho
    apply Follows.bind (.lift hn.1.lookup)
    intro v v' hv
    cases hC.alike _ _ _ hv with
    | @closure fn captured captured' hbody henv =>
      dsimp only
      split
      · apply (evalArgs_follows hC hcall args hn.2 ho).bind
        exact fun vs vs' hvs => hcall _ _ _ (sees_bindParams fn henv hvs) hbody
      · exact .throw _
    | _ => exact .throw _
  | .unknown, _, _ => by
    rw [evalWith, evalWith]
    exact .throw _

theorem evalArgs_follows (hC : C.Lawful s s') {call call' : Call} (hcall : C.Calls call call')
    {env env' : Environment} : ∀ es : List Expr, (∀ x ∈ Expr.namesOfAll es, C.Sees env env' x) →
      (∀ op ∈ Expr.operatorsOfAll es, C.applied op) →
      Follows C.SameNotes C.excused (List.Forall₂ C.Values) (evalArgs call env s es)
        (evalArgs call' env' s' es)
  | [], _, _ => by
    rw [evalArgs, evalArgs]
    exact .pure .nil
  | e :: es, hn, ho => by
    rw [evalArgs, evalArgs]
    simp only [Expr.namesOfAll, Expr.operatorsOfAll, List.mem_append] at hn ho
    apply (evalWith_follows hC hcall e (fun x hx => hn x (.inl hx))
      fun op hop => ho op (.inl hop)).bind
    intro v v' hv
    apply (evalArgs_follows hC hcall es (fun x hx => hn x (.inr hx))
      fun op hop => ho op (.inr hop)).bind
    exact fun vs vs' hvs => .pure (.cons hv hvs)

end

/-- The second side may have more levels left if running out of them is excused on the first. -/
theorem callWithin_follows (hC : C.Lawful s s') {limit limit' : Number} {levels levels' : Nat}
    (hle : levels ≤ levels')
    (hlimit : C.excused (.callsTooDeep limit) ∨ limit = limit' ∧ levels = levels') :
    C.Calls (callWithin limit s levels) (callWithin limit' s' levels') := by
  induction levels generalizing levels' with
  | zero =>
    intro env env' body henv hbody
    rcases hlimit with he | ⟨rfl, rfl⟩
    · exact .excuse he _
    · exact .throw _
  | succ levels ih =>
    obtain ⟨rest, rfl⟩ : ∃ rest, levels' = rest + 1 := ⟨levels' - 1, by omega⟩
    intro env env' body henv hbody
    have hcalls := ih (by omega : levels ≤ rest) (hlimit.imp_right fun h => ⟨h.1, by omega⟩)
    exact evalWith_follows hC hcalls body (fun x _ => henv x) hbody

theorem eval_follows (hC : C.Lawful s s') {depth depth' : Number}
    (hle : depth.countBelow ≤ depth'.countBelow)
    (hdepth : C.excused (.callsTooDeep depth) ∨ depth = depth') {env env' : Environment} {e : Expr}
    (hn : ∀ x ∈ e.names, C.Sees env env' x) (ho : ∀ op ∈ e.operators, C.applied op) :
    Follows C.SameNotes C.excused C.Values (eval depth env s e) (eval depth' env' s' e) := by
  have hcalls := callWithin_follows hC hle (hdepth.imp_right fun h => ⟨h, by rw [h]⟩)
  exact evalWith_follows hC hcalls e hn ho

end Evaluation

end Coupling

end SimplexScript
