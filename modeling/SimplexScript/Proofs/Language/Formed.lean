import SimplexScript.Language.Exec
import SimplexScript.Proofs.Language.Execution

/-!
# Formed programs

What a program must look like for its forms to have a meaning: every name has
a character, every literal a vertex or a safe integer, and no form is unknown.
Closures keep this of the bodies that they carry around, so executing a formed
program never meets a form without a meaning, wherever its functions end up.
-/

set_option autoImplicit false

namespace SimplexScript

mutual

def Expr.Formed : Expr → Prop
  | .ident name => name ≠ ""
  | .complexLit vertices => vertices ≠ [] ∧ ∀ v ∈ vertices, v ≠ ""
  | .int a => a.isSafe = true
  | .opCall op args mapping =>
    op ≠ "" ∧ FormedAll args ∧ ∀ m ∈ mapping, ∀ e ∈ m, e.1 ≠ "" ∧ e.2 ≠ ""
  | .funCall name args => name ≠ "" ∧ FormedAll args
  | .unknown => False

def Expr.FormedAll : List Expr → Prop
  | [] => True
  | e :: es => e.Formed ∧ FormedAll es

end

theorem Expr.formedAll_iff {es : List Expr} : FormedAll es ↔ ∀ e ∈ es, e.Formed := by
  induction es with
  | nil => simp [FormedAll]
  | cons e es ih => simp [FormedAll, ih]

mutual

def Command.Formed : Command → Prop
  | .complexDecl name e => name ≠ "" ∧ e.Formed
  | .vertexDecl name => name ≠ ""
  | .assign name e => name ≠ "" ∧ e.Formed
  | .branch cond yes no => cond.Formed ∧ FormedAll yes ∧ FormedAll no
  | .loop cond body => cond.Formed ∧ FormedAll body
  | .functionDecl fn => fn.name ≠ "" ∧ (∀ x ∈ fn.params, x ≠ "") ∧ fn.body.Formed
  | .unknown => False

def Command.FormedAll : List Command → Prop
  | [] => True
  | c :: cs => c.Formed ∧ FormedAll cs

end

theorem Command.formedAll_iff {cs : List Command} : FormedAll cs ↔ ∀ c ∈ cs, c.Formed := by
  induction cs with
  | nil => simp [FormedAll]
  | cons c cs ih => simp [FormedAll, ih]

namespace Fault

/-- The faults of a form itself: it is outside the language, or a literal that is no safe
integer. -/
def OfForm : Fault → Prop
  | unknownForm => True
  | integerOverflow context _ => context = "literal"
  | _ => False

def Regular (f : Fault) : Prop := ¬ f.OfForm

end Fault

namespace Value

/-- A value whose functions have formed bodies. Operators do not pass for literals in messages. -/
inductive Formed : Value → Prop
  | complex (c : Complex) : Formed (.complex c)
  | int (a : Number) : Formed (.int a)
  | closure {fn : Function} {env : List (String × Value)} (hbody : fn.body.Formed)
      (henv : ∀ e ∈ env, Formed e.2) : Formed (.closure fn env)
  | loc (a : Number) : Formed (.loc a)
  | vertex (v : String) : Formed (.vertex v)
  | operator {op : Operator} (h : op.name ≠ "literal") : Formed (.operator op)

end Value

def Environment.Formed (env : Environment) : Prop := ∀ e ∈ env, e.2.Formed

section Algebra

open Fault

theorem perform_regular {op : Operator} (hop : op.name ≠ "literal") (args : List Value)
    (mapping : Option Complex.Mapping) (order : Table String Number) :
    Meets (op.perform args mapping order) Value.Formed Regular := by
  have hregular : ∀ f, op.Raises f → f.Regular := by
    intro f hf hform
    cases f with
    | integerOverflow context a =>
      have hcontext : context = op.name := hf
      exact hop (hcontext ▸ hform)
    | unknownForm => exact hf
    | _ => exact hform
  apply ((op.perform_raises args mapping order).weaken hregular).mono
  intro v hv
  cases hv with
  | complex _ => exact .complex _
  | int a => exact .int a

end Algebra

section Evaluation

open Fault

variable {env : Environment} {s : State}

theorem Environment.Formed.lookup (henv : env.Formed) (name : String) :
    Yields (env.lookup name) Value.Formed Regular := by
  unfold Environment.lookup
  cases h : Table.get? env name with
  | none => exact id
  | some v => exact henv _ (Table.mem_of_get? h)

theorem Environment.Formed.set (henv : env.Formed) (name : String) {v : Value} (hv : v.Formed) :
    Environment.Formed (Table.set env name v) :=
  Table.forall_set henv hv

theorem Environment.Formed.bindParams (henv : env.Formed) (fn : Function) {args : List Value}
    (hargs : ∀ v ∈ args, v.Formed) : Environment.Formed (bindParams fn env args) :=
  Table.forall_setAll _ henv fun _ he => hargs _ (List.of_mem_zip he).2

theorem Environment.initial_formed : Environment.initial.Formed := by
  have hnames : ∀ d ∈ Registry.standard, d.2.name ≠ "literal" := by decide +kernel
  apply Table.forall_setAll
  · simp
  · intro e he
    obtain ⟨d, hd, rfl⟩ := List.mem_map.1 he
    exact .operator (hnames d hd)

theorem evalName_regular (henv : env.Formed) (name : String) :
    Meets (evalName env s name) Value.Formed Regular := by
  apply Meets.bind (.lift (henv.lookup name))
  intro v hv
  cases hv with
  | loc a => exact (Meets.lift (s.access_yields a id)).bind fun c _ => .pure (.complex c)
  | vertex v => exact .pure (.complex _)
  | operator _ => exact .throw id
  | complex c => exact .pure (.complex c)
  | int a => exact .pure (.int a)
  | closure hbody hcap => exact .pure (.closure hbody hcap)

theorem formed_inherited (limit : Number) (s : State) :
    Inherited limit s (fun _ env e => env.Formed ∧ e.Formed) Value.Formed Regular where
  unbound _ := id
  notAnOperator _ := id
  notAFunction _ := id
  arity _ _ _ := id
  name _ env x h := evalName_regular h.1 x
  literal _ env vs _ := (Complex.ofVertices_yields vs fun _ => id).mono fun c _ => .complex c
  int _ env a h := by
    have hsafe : a.isSafe = true := h.2
    rw [if_pos hsafe]
    exact .int a
  unknown _ env h := h.2.elim
  operand _ env x args m h e he := ⟨h.1, Expr.formedAll_iff.1 h.2.2.1 e he⟩
  perform _ env x args m op vs h hx _ := by
    cases h.1 _ (Table.mem_of_get? hx) with
    | operator hop => exact perform_regular hop vs m _
  argument _ env x args h e he := ⟨h.1, Expr.formedAll_iff.1 h.2.2 e he⟩
  body _ env x args fn captured vs h hf hvs := by
    cases h.1 _ (Table.mem_of_get? hf) with
    | closure hbody hcap => exact ⟨Environment.Formed.bindParams hcap fn hvs, hbody⟩
  deep _ _ _ _ _ _ _ := id

theorem eval_regular (limit : Number) (henv : env.Formed) {e : Expr} (he : e.Formed) :
    Meets (eval limit env s e) Value.Formed Regular :=
  (formed_inherited limit s).within_meets ⟨henv, he⟩

theorem evalComplex_regular (o : Options) (henv : env.Formed) {e : Expr} (he : e.Formed)
    (context : String) : Meets (evalComplex o env s e context) (fun _ => True) Regular :=
  evalComplex_meets (eval_regular _ henv he) context fun _ _ _ => id

end Evaluation

section Execution

open Fault

theorem formed_guided (o : Options) :
    Guided o (fun cs k => Command.FormedAll cs ∧ k.env.Formed) (fun _ _ => True) Regular where
  refl _ := trivial
  trans _ _ _ _ _ := trivial
  unknown _ _ h := h.1.1.elim
  rounds := id
  condition env s c cs e h he := by
    cases c with
    | branch cond yes no =>
      cases he
      exact evalCondition_meets (eval_regular _ h.2 h.1.1.1) fun _ _ _ => id
    | loop cond body =>
      cases he
      exact evalCondition_meets (eval_regular _ h.2 h.1.1.1) fun _ _ _ => id
    | _ => cases he
  complexDecl env s name e cs h := by
    apply (declareComplex_meets name (evalComplex_regular o h.2 h.1.1.2)).mono
    rintro k ⟨a, hk⟩
    exact ⟨⟨h.1.2, hk ▸ h.2.set name (.loc a)⟩, trivial⟩
  vertexDecl env s name cs h :=
    declareVertex_yields (fun v _ _ => ⟨⟨h.1.2, h.2.set name (.vertex v)⟩, trivial⟩) id
  assign env s name e cs h := by
    apply (assignComplex_meets name (evalComplex_regular o h.2 h.1.1.2) id id fun _ => id).mono
    exact fun k hk => ⟨⟨h.1.2, hk.symm ▸ h.2⟩, trivial⟩
  functionDecl env s fn cs h := ⟨h.1.2, h.2.set fn.name (.closure h.1.1.2.2 h.2)⟩
  enter k c cs block h hb := by
    refine ⟨?_, h.2⟩
    cases c with
    | branch cond yes no =>
      simp only [Command.blocks, List.mem_cons, List.not_mem_nil, or_false] at hb
      rcases hb with rfl | rfl
      · exact h.1.1.2.1
      · exact h.1.1.2.2
    | loop cond body =>
      simp only [Command.blocks, List.mem_singleton] at hb
      subst hb
      exact h.1.1.2
    | _ => simp [Command.blocks] at hb
  leave env s c cs k h _ _ _ := ⟨h, trivial⟩
  done k c cs h _ := ⟨h.1.2, h.2⟩

/-- A formed program meets no fault of a form, whatever it is run with. -/
theorem evaluate_regular (o : Options) {commands : List Command}
    (h : Command.FormedAll commands) : Meets (evaluate o commands) (fun _ => True) Regular :=
  ((formed_guided o).execAll_meets _ _ commands ⟨h, Environment.initial_formed⟩).mono
    fun _ _ => trivial

end Execution

end SimplexScript
