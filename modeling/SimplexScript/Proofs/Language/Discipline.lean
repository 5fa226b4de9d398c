import SimplexScript.Proofs.Language.Evaluation

/-!
# Disciplines

A discipline says what is asked of the complexes, addresses, vertices and
literals of a run, and which faults its guards exclude. It extends to values
through the environments that functions capture. If the algebra and the store
keep a discipline, so does every evaluation, at every depth of calls.
-/

set_option autoImplicit false

namespace SimplexScript

/-- The codes of the checks that a discipline may show to be idle. -/
def Code.guards : List Code := [.incompatibleIdentification, .emptyComplex, .uninitializedAddress]

mutual

def Expr.literals : Expr → List (List String)
  | .complexLit vertices => [vertices]
  | .opCall _ args _ => literalsOfAll args
  | .funCall _ args => literalsOfAll args
  | _ => []

def Expr.literalsOfAll : List Expr → List (List String)
  | [] => []
  | e :: es => e.literals ++ literalsOfAll es

end

theorem Expr.mem_literalsOfAll {es : List Expr} {vs : List String} :
    vs ∈ literalsOfAll es ↔ ∃ e ∈ es, vs ∈ e.literals := by
  induction es with
  | nil => simp [literalsOfAll]
  | cons e es ih => simp [literalsOfAll, ih]

structure Discipline where
  complex : Complex → Prop
  address : Number → Prop
  vertex : String → Prop
  literal : List String → Prop
  excluded : Code → Prop

namespace Discipline

def Spares (D : Discipline) (f : Fault) : Prop := ∀ c, f.code = some c → ¬ D.excluded c

/-- What a discipline asks of a value, of everything that a function captured too. -/
inductive Accepts (D : Discipline) : Value → Prop
  | complex {c : Complex} (h : D.complex c) : Accepts D (.complex c)
  | int (a : Number) : Accepts D (.int a)
  | closure {fn : Function} {env : List (String × Value)}
      (hbody : ∀ vs ∈ fn.body.literals, D.literal vs) (henv : ∀ e ∈ env, Accepts D e.2) :
      Accepts D (.closure fn env)
  | loc {a : Number} (h : D.address a) : Accepts D (.loc a)
  | vertex {v : String} (h : D.vertex v) : Accepts D (.vertex v)
  | operator (op : Operator) : Accepts D (.operator op)

def AcceptsAll (D : Discipline) (env : Environment) : Prop := ∀ e ∈ env, D.Accepts e.2

/-- The algebra of complexes keeps a discipline, and so does reading notes. -/
structure Lawful (D : Discipline) : Prop where
  guards : ∀ c, D.excluded c → c ∈ Code.guards
  view : ∀ (n : Notes) (c : Complex), D.complex c → D.complex (n.view c)
  point : ∀ v, D.vertex v → D.complex (Complex.point v)
  literal : ∀ vs c, D.literal vs → Complex.ofVertices vs = .ok c → D.complex c
  union : ∀ k l, D.complex k → D.complex l → Yields (k.union l) D.complex D.Spares
  join : ∀ k l, D.complex k → D.complex l → Yields (k.join l) D.complex D.Spares
  glue : ∀ k l m, D.complex k → D.complex l → Yields (k.glue l m) D.complex D.Spares
  pick : ∀ c order, D.complex c → Yields (c.pick order) D.complex D.Spares

def Serves (D : Discipline) (s : State) : Prop :=
  ∀ a, D.address a → Yields (s.access a) D.complex D.Spares

theorem Accepts.mono {D E : Discipline} (hc : ∀ c, D.complex c → E.complex c)
    (ha : ∀ a, D.address a → E.address a) (hv : ∀ v, D.vertex v → E.vertex v)
    (hl : ∀ vs, D.literal vs → E.literal vs) {v : Value} (h : D.Accepts v) : E.Accepts v := by
  induction h with
  | complex h => exact .complex (hc _ h)
  | int a => exact .int a
  | closure hbody _ ih => exact .closure (fun vs hvs => hl vs (hbody vs hvs)) ih
  | loc h => exact .loc (ha _ h)
  | vertex h => exact .vertex (hv _ h)
  | operator op => exact .operator op

section Lookup

variable {D : Discipline} {env : Environment}

theorem AcceptsAll.set {name : String} {v : Value} (henv : D.AcceptsAll env) (hv : D.Accepts v) :
    D.AcceptsAll (Table.set env name v) :=
  Table.forall_set henv hv

theorem AcceptsAll.bindParams {fn : Function} {args : List Value} (henv : D.AcceptsAll env)
    (hargs : ∀ v ∈ args, D.Accepts v) : D.AcceptsAll (bindParams fn env args) :=
  Table.forall_setAll _ henv fun _ he => hargs _ (List.of_mem_zip he).2

theorem accepts_initial (D : Discipline) : D.AcceptsAll Environment.initial := by
  apply Table.forall_setAll
  · simp
  · intro e he
    obtain ⟨d, -, rfl⟩ := List.mem_map.1 he
    exact .operator d.2

end Lookup

section Algebra

variable {D : Discipline}

theorem Lawful.spares (hD : D.Lawful) {f : Fault} (h : ∀ c, f.code = some c → c ∉ Code.guards) :
    D.Spares f :=
  fun c hc hx => h c hc (hD.guards c hx)

theorem lookup_yields (hD : D.Lawful) {env : Environment} (henv : D.AcceptsAll env)
    (name : String) : Yields (env.lookup name) D.Accepts D.Spares := by
  unfold Environment.lookup
  cases h : Table.get? env name with
  | none => exact hD.spares (by simp [Fault.code, Code.guards])
  | some v => exact henv _ (Table.mem_of_get? h)

theorem expectComplex_yields (hD : D.Lawful) (context : String) {v : Value} (hv : D.Accepts v) :
    Yields (v.expectComplex context) D.complex D.Spares := by
  cases hv with
  | complex h => exact h
  | _ => exact hD.spares (by simp [Fault.code, Code.guards])

theorem expectInt_yields (hD : D.Lawful) (context : String) (v : Value) :
    Yields (v.expectInt context) (fun _ => True) D.Spares :=
  v.expectInt_yields context fun _ _ => hD.spares (by simp [Fault.code, Code.guards])

theorem Lawful.keeps (hD : D.Lawful) (op : Operator) : op.Keeps D.complex D.Spares where
  typeMismatch _ _ _ := hD.spares (by simp [Fault.code, Code.guards])
  arityMismatch _ _ _ := hD.spares (by simp [Fault.code, Code.guards])
  misuse _ := hD.spares (by simp [Fault.code, Code.guards])
  tooLarge _ _ := hD.spares (by simp [Fault.code, Code.guards])
  overflow _ := hD.spares (by simp [Fault.code, Code.guards])
  view := hD.view
  union := hD.union
  join := hD.join
  glue := hD.glue
  pick := hD.pick

theorem perform_meets (hD : D.Lawful) (op : Operator) {args : List Value}
    (mapping : Option Complex.Mapping) (order : Table String Number)
    (h : ∀ v ∈ args, D.Accepts v) : Meets (op.perform args mapping order) D.Accepts D.Spares := by
  have hargs : ∀ c, .complex c ∈ args → D.complex c := by
    intro c hc
    cases h _ hc with
    | complex hc => exact hc
  apply ((hD.keeps op).perform_meets hargs mapping order).mono
  intro v hv
  cases hv with
  | complex hc => exact .complex hc
  | int a => exact .int a

end Algebra

section Evaluation

variable {D : Discipline} {s : State}

theorem evalName_meets (hD : D.Lawful) (hs : D.Serves s) {env : Environment}
    (henv : D.AcceptsAll env) (name : String) :
    Meets (evalName env s name) D.Accepts D.Spares := by
  apply Meets.bind (.lift (lookup_yields hD henv name))
  intro v hv
  cases hv with
  | complex h => exact .pure (.complex h)
  | int a => exact .pure (.int a)
  | closure hbody hcap => exact .pure (.closure hbody hcap)
  | loc h => exact (Meets.lift (hs _ h)).bind fun c hc => .pure (.complex hc)
  | vertex h => exact .pure (.complex (hD.point _ h))
  | operator op => exact .throw (hD.spares (by simp [Fault.code, Code.guards]))

theorem ofVertices_yields (hD : D.Lawful) {vertices : List String} (h : D.literal vertices) :
    Yields (Complex.ofVertices vertices) D.complex D.Spares := by
  cases hc : Complex.ofVertices vertices with
  | ok c => exact hD.literal _ _ h hc
  | error f =>
    unfold Complex.ofVertices at hc
    split at hc
    · cases hc
      exact hD.spares (by simp [Fault.code, Code.guards])
    · cases hc

/-- Evaluation keeps a discipline, however many levels of calls are left. -/
theorem Lawful.inherited (hD : D.Lawful) (hs : D.Serves s) (limit : Number) :
    Inherited limit s (fun _ env e => D.AcceptsAll env ∧ ∀ vs ∈ e.literals, D.literal vs)
      D.Accepts D.Spares where
  unbound _ := hD.spares (by simp [Fault.code, Code.guards])
  notAnOperator _ := hD.spares (by simp [Fault.code, Code.guards])
  notAFunction _ := hD.spares (by simp [Fault.code, Code.guards])
  arity _ _ _ := hD.spares (by simp [Fault.code, Code.guards])
  name _ env x h := evalName_meets hD hs h.1 x
  literal _ env vs h := by
    apply (ofVertices_yields hD (h.2 vs (by simp [Expr.literals]))).mono
    exact fun c hc => .complex hc
  int _ env a _ := by
    split
    · exact .int a
    · exact hD.spares (by simp [Fault.code, Code.guards])
  unknown _ env _ := hD.spares (by simp [Fault.code])
  operand _ env x args m h e he :=
    ⟨h.1, fun vs hvs => h.2 vs (Expr.mem_literalsOfAll.2 ⟨e, he, hvs⟩)⟩
  perform _ env x args m op vs _ _ hvs := perform_meets hD op m _ hvs
  argument _ env x args h e he :=
    ⟨h.1, fun vs hvs => h.2 vs (Expr.mem_literalsOfAll.2 ⟨e, he, hvs⟩)⟩
  body _ env x args fn captured vs h hf hvs := by
    cases h.1 _ (Table.mem_of_get? hf) with
    | closure hbody hcap => exact ⟨AcceptsAll.bindParams hcap hvs, hbody⟩
  deep _ _ _ _ _ _ _ := hD.spares (by simp [Fault.code, Code.guards])

theorem eval_meets (hD : D.Lawful) (hs : D.Serves s) (limit : Number) {env : Environment}
    (henv : D.AcceptsAll env) {e : Expr} (he : ∀ vs ∈ e.literals, D.literal vs) :
    Meets (eval limit env s e) D.Accepts D.Spares :=
  (hD.inherited hs limit).within_meets ⟨henv, he⟩

end Evaluation

end Discipline

end SimplexScript
