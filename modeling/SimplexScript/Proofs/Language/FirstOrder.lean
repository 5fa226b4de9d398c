import SimplexScript.Proofs.Document.Runs
import SimplexScript.Proofs.Language.Trail
import SimplexScript.Proofs.Number.Counting

/-!
# First-order programs

A function does not see its own name: it captures the environment of its
declaration, where only functions declared before it are bound. So functions
have heights, and a call goes down in height, as long as no function reaches
an environment by another way than its declaration. In a program that uses no
function as a value there is no other way, and calls nest at most as deep as
functions are declared, whatever its loops declare again.
-/

set_option autoImplicit false

namespace SimplexScript

mutual

def Expr.idents : Expr → List String
  | .ident name => [name]
  | .opCall _ args _ => identsOfAll args
  | .funCall _ args => identsOfAll args
  | _ => []

def Expr.identsOfAll : List Expr → List String
  | [] => []
  | e :: es => e.idents ++ identsOfAll es

end

theorem Expr.mem_identsOfAll {es : List Expr} {x : String} :
    x ∈ identsOfAll es ↔ ∃ e ∈ es, x ∈ e.idents := by
  induction es with
  | nil => simp [identsOfAll]
  | cons e es ih => simp [identsOfAll, ih]

namespace Command

def exprs : Command → List Expr
  | .complexDecl _ e => [e]
  | .assign _ e => [e]
  | .branch cond _ _ => [cond]
  | .loop cond _ => [cond]
  | .functionDecl fn => [fn.body]
  | _ => []

def function? : Command → Option Function
  | .functionDecl fn => some fn
  | _ => none

def functions (cs : List Command) : List Function := (partsOfAll cs).filterMap function?

/-- No function that is declared anywhere is used as a value anywhere. -/
def FirstOrder (cs : List Command) : Prop :=
  ∀ fn ∈ functions cs, ∀ c ∈ partsOfAll cs, ∀ e ∈ c.exprs, fn.name ∉ e.idents

theorem mem_exprs_of_condition {c : Command} {e : Expr} (h : c.condition? = some e) :
    e ∈ c.exprs := by
  cases c with
  | branch cond yes no =>
    cases h
    exact List.mem_singleton_self _
  | loop cond body =>
    cases h
    exact List.mem_singleton_self _
  | _ => cases h

theorem length_functions_le {bs cs : List Command}
    (h : (partsOfAll bs).Sublist (partsOfAll cs)) :
    (functions bs).length ≤ (functions cs).length :=
  (h.filterMap function?).length_le

end Command

/-- A function stands under one of the names `D`, uses none of them as a value, and captured what is
at least one layer lower. Whatever is no function stands anywhere. -/
inductive Value.Layered (D : List String) : Nat → String → Value → Prop
  | plain {h : Nat} {x : String} {v : Value} (hv : v.isClosure = false) : Layered D h x v
  | closure {h : Nat} {x : String} {fn : Function} {env : List (String × Value)} (hx : x ∈ D)
      (hbody : ∀ y ∈ fn.body.idents, y ∉ D) (henv : ∀ e ∈ env, Layered D h e.1 e.2) :
      Layered D (h + 1) x (.closure fn env)

def Environment.Layered (D : List String) (h : Nat) (env : Environment) : Prop :=
  ∀ e ∈ env, Value.Layered D h e.1 e.2

section Layers

variable {D : List String} {h : Nat} {env : Environment}

theorem Value.Layered.mono {x : String} {v : Value} (hv : v.Layered D h x) {h' : Nat}
    (hle : h ≤ h') : v.Layered D h' x := by
  induction hv generalizing h' with
  | plain hv => exact .plain hv
  | @closure h x fn env hx hbody _ ih =>
    obtain ⟨m, rfl⟩ : ∃ m, h' = m + 1 := ⟨h' - 1, by omega⟩
    exact .closure hx hbody fun e he => ih e he (by omega)

theorem Environment.Layered.mono (henv : env.Layered D h) {h' : Nat} (hle : h ≤ h') :
    env.Layered D h' :=
  fun e he => (henv e he).mono hle

theorem Environment.Layered.set (henv : env.Layered D h) {x : String} {v : Value}
    (hv : v.Layered D h x) : Environment.Layered D h (Table.set env x v) := by
  intro e he
  rcases Table.mem_set he with rfl | he
  · exact hv
  · exact henv e he

theorem Value.Plain.isClosure {good : Complex → Prop} {v : Value} (hv : v.Plain good) :
    v.isClosure = false := by
  cases hv with
  | complex _ => rfl
  | int _ => rfl

theorem Environment.Layered.bindParams (henv : env.Layered D h) (fn : Function) {vs : List Value}
    (hvs : ∀ v ∈ vs, v.Plain fun _ => True) :
    Environment.Layered D h (bindParams fn env vs) := by
  intro e he
  rcases Table.mem_setAll he with he | he
  · exact henv e he
  · exact .plain (hvs _ (List.of_mem_zip he).2).isClosure

theorem Environment.Layered.captured (henv : env.Layered D h) {x : String} {fn : Function}
    {captured : Environment} (hx : Table.get? env x = some (.closure fn captured)) :
    ∃ m, h = m + 1 ∧ x ∈ D ∧ (∀ y ∈ fn.body.idents, y ∉ D) ∧ captured.Layered D m := by
  cases henv _ (Table.mem_of_get? hx) with
  | plain hv => cases hv
  | closure hx hbody hcap => exact ⟨_, rfl, hx, hbody, hcap⟩

theorem Environment.layered_initial (D : List String) :
    Environment.Layered D 0 Environment.initial := by
  intro e he
  rcases Table.mem_setAll he with he | he
  · cases he
  · obtain ⟨d, -, rfl⟩ := List.mem_map.1 he
    exact .plain rfl

end Layers

def Fault.Shallow : Fault → Prop
  | callsTooDeep _ => False
  | _ => True

section Nesting

/-- So many calls are open at once at some point of the evaluation of an expression. Whether it comes
so far is left open, but what is bound to the parameters of a call are values of its arguments. -/
inductive Nests (limit : Number) (s : State) : Environment → Expr → Nat → Prop
  | none (env : Environment) (e : Expr) : Nests limit s env e 0
  | operand {env : Environment} {op : String} {args : List Expr} {m : Option Complex.Mapping}
      {a : Expr} {n : Nat} (ha : a ∈ args) (h : Nests limit s env a n) :
      Nests limit s env (.opCall op args m) n
  | argument {env : Environment} {name : String} {args : List Expr} {a : Expr} {n : Nat}
      (ha : a ∈ args) (h : Nests limit s env a n) : Nests limit s env (.funCall name args) n
  | call {env captured : Environment} {name : String} {args : List Expr} {fn : Function}
      {vs : List Value} {n levels : Nat} {u v : Notes}
      (hf : Table.get? env name = some (.closure fn captured))
      (hargs : evalArgs (callWithin limit s levels) env s args u = .ok vs v)
      (h : Nests limit s (bindParams fn captured vs) fn.body n) :
      Nests limit s env (.funCall name args) (n + 1)

variable {limit : Number} {s : State} {n : Nat} {env : Environment}

theorem evalName_meets (env : Environment) (s : State) (x : String) :
    Meets (evalName env s x) (fun v => v.Plain (fun _ => True) ∨
      ∃ fn captured, Table.get? env x = some (.closure fn captured)) Fault.Shallow := by
  apply Meets.bind (.lift (env.lookup_yields x trivial))
  intro v hv
  cases v with
  | complex c => exact .pure (.inl (.complex trivial))
  | int a => exact .pure (.inl (.int a))
  | closure fn captured => exact .pure (.inr ⟨fn, captured, hv⟩)
  | loc a =>
    apply (Meets.lift (s.access_yields a trivial)).bind
    exact fun c _ => .pure (.inl (.complex trivial))
  | vertex w => exact .pure (.inl (.complex trivial))
  | operator op => exact .throw trivial

theorem Operator.perform_shallow (op : Operator) (vs : List Value) (m : Option Complex.Mapping)
    (order : Table String Number) :
    Meets (op.perform vs m order) (Value.Plain fun _ => True) Fault.Shallow := by
  apply (op.perform_raises vs m order).weaken
  intro f hf
  cases f with
  | callsTooDeep limit => exact hf
  | _ => trivial

def CallsNest (limit : Number) (s : State) (n : Nat) : Prop :=
  ∀ env body, Meets (callWithin limit s n env body) (fun _ => True)
    (fun f => f.Shallow ∨ Nests limit s env body n)

mutual

/-- With `n` levels left, only an expression that nests more calls than that goes too deep. -/
theorem evalWith_nests (hcall : CallsNest limit s n) :
    ∀ e : Expr, Meets (evalWith (callWithin limit s n) env s e) (fun _ => True)
      (fun f => f.Shallow ∨ Nests limit s env e (n + 1))
  | .ident x => by
    rw [evalWith]
    exact ((evalName_meets env s x).mono fun _ _ => trivial).weaken fun f hf => .inl hf
  | .complexLit vs => by
    rw [evalWith]
    apply (Meets.lift (Complex.ofVertices_yields vs fun v => .inl trivial)).bind
    exact fun c _ => .pure trivial
  | .int a => by
    rw [evalWith]
    split
    · exact .pure trivial
    · exact .throw (.inl trivial)
  | .opCall x args m => by
    rw [evalWith]
    apply Meets.bind (.lift (env.lookup_yields x (.inl trivial)))
    intro v _
    cases v with
    | operator op =>
      apply Meets.bind ((evalArgs_nests hcall args).weaken ?_)
      · intro vs _
        apply ((op.perform_shallow vs m s.vertexOrder).mono fun _ _ => trivial).weaken
        exact fun f hf => .inl hf
      · rintro f (hf | ⟨a, ha, hn⟩)
        · exact .inl hf
        · exact .inr (.operand ha hn)
    | _ => exact .throw (.inl trivial)
  | .funCall x args => by
    rw [evalWith]
    apply Meets.bind (.lift (env.lookup_yields x (.inl trivial)))
    intro v hv
    cases v with
    | closure fn captured =>
      dsimp only
      split
      · apply Meets.bind ((evalArgs_nests hcall args).attained.weaken ?_)
        · rintro vs ⟨u, w, hvs⟩
          apply (hcall (bindParams fn captured vs) fn.body).weaken
          rintro f (hf | hn)
          · exact .inl hf
          · exact .inr (.call hv hvs hn)
        · rintro f (hf | ⟨a, ha, hn⟩)
          · exact .inl hf
          · exact .inr (.argument ha hn)
      · exact .throw (.inl trivial)
    | _ => exact .throw (.inl trivial)
  | .unknown => by
    rw [evalWith]
    exact .throw (.inl trivial)

theorem evalArgs_nests (hcall : CallsNest limit s n) :
    ∀ es : List Expr, Meets (evalArgs (callWithin limit s n) env s es) (fun _ => True)
      (fun f => f.Shallow ∨ ∃ a ∈ es, Nests limit s env a (n + 1))
  | [] => by
    rw [evalArgs]
    exact .pure trivial
  | e :: es => by
    rw [evalArgs]
    apply Meets.bind ((evalWith_nests hcall e).weaken ?_)
    · intro v _
      apply Meets.bind ((evalArgs_nests hcall es).weaken ?_)
      · exact fun vs _ => .pure trivial
      · rintro f (hf | ⟨a, ha, hn⟩)
        · exact .inl hf
        · exact .inr ⟨a, by simp [ha], hn⟩
    · rintro f (hf | hn)
      · exact .inl hf
      · exact .inr ⟨e, by simp, hn⟩

end

theorem callWithin_nests (limit : Number) (s : State) (n : Nat) : CallsNest limit s n := by
  induction n with
  | zero => exact fun env body => .throw (.inr (.none env body))
  | succ n ih => exact fun env body => evalWith_nests ih body

theorem eval_nests (limit : Number) (env : Environment) (s : State) (e : Expr) :
    Meets (eval limit env s e) (fun _ => True)
      (fun f => f.Shallow ∨ Nests limit s env e (limit.countBelow + 1)) :=
  evalWith_nests (callWithin_nests limit s _) e

end Nesting

section Evaluation

variable {D : List String} {s : State} {h : Nat} {env : Environment}

theorem layered_inherited (limit : Number) (s : State) (D : List String) :
    Inherited limit s
      (fun _ env e => (∀ y ∈ e.idents, y ∉ D) ∧ ∃ h, env.Layered D h)
      (Value.Plain fun _ => True) (fun _ => True) where
  unbound _ := trivial
  notAnOperator _ := trivial
  notAFunction _ := trivial
  arity _ _ _ := trivial
  name _ env x := by
    rintro ⟨hx, h, henv⟩
    apply ((evalName_meets env s x).weaken fun _ _ => trivial).mono
    rintro v (hv | ⟨fn, captured, hf⟩)
    · exact hv
    · obtain ⟨_, _, hmem, _⟩ := henv.captured hf
      exact absurd hmem (hx x (by simp [Expr.idents]))
  literal _ env vs _ :=
    (Complex.ofVertices_yields vs fun _ => trivial).mono fun c _ => .complex trivial
  int _ env a _ := by
    split
    · exact .int a
    · trivial
  unknown _ env _ := trivial
  operand _ env x args m h e he :=
    ⟨fun y hy => h.1 y (Expr.mem_identsOfAll.2 ⟨e, he, hy⟩), h.2⟩
  perform _ env x args m op vs _ _ _ :=
    (op.perform_shallow vs m s.vertexOrder).weaken fun _ _ => trivial
  argument _ env x args h e he :=
    ⟨fun y hy => h.1 y (Expr.mem_identsOfAll.2 ⟨e, he, hy⟩), h.2⟩
  body n env x args fn captured vs := by
    rintro ⟨-, h, henv⟩ hx hvs
    obtain ⟨m, rfl, -, hbody, hcap⟩ := henv.captured hx
    exact ⟨hbody, m, hcap.bindParams fn hvs⟩
  deep _ _ _ _ _ _ _ := trivial

theorem Nests.le {limit : Number} {e : Expr} {n : Nat} (hn : Nests limit s env e n)
    (henv : env.Layered D h) (he : ∀ y ∈ e.idents, y ∉ D) : n ≤ h := by
  induction hn generalizing h with
  | none => exact Nat.zero_le _
  | @operand env op args m a n ha _ ih =>
    exact ih henv fun y hy => he y (Expr.mem_identsOfAll.2 ⟨a, ha, hy⟩)
  | @argument env name args a n ha _ ih =>
    exact ih henv fun y hy => he y (Expr.mem_identsOfAll.2 ⟨a, ha, hy⟩)
  | @call env captured name args fn vs n levels u v hf hargs _ ih =>
    -- the parameters are bound to no functions, so the body stands on the layers of its function
    obtain ⟨m, rfl, -, hbody, hcap⟩ := henv.captured hf
    have hargs' : ∀ a ∈ args, ∀ y ∈ a.idents, y ∉ D :=
      fun a ha y hy => he y (Expr.mem_identsOfAll.2 ⟨a, ha, hy⟩)
    have hplain := (layered_inherited limit s D).argsWithin_meets (n := levels)
      fun a ha => ⟨hargs' a ha, m + 1, henv⟩
    have := ih (hcap.bindParams fn (hplain.of_ok hargs)) hbody
    omega

end Evaluation

def Command.Respects (D : List String) (c : Command) : Prop :=
  (∀ e ∈ c.exprs, ∀ y ∈ e.idents, y ∉ D) ∧ ∀ fn, c.function? = some fn → fn.name ∈ D

theorem Command.FirstOrder.respects {cs : List Command} (hcs : FirstOrder cs) :
    ∀ c ∈ partsOfAll cs, c.Respects ((functions cs).map Function.name) := by
  intro c hc
  constructor
  · intro e he y hy hmem
    obtain ⟨fn, hfn, rfl⟩ := List.mem_map.1 hmem
    exact hcs fn hfn c hc e he hy
  · intro fn hfn
    exact List.mem_map_of_mem (List.mem_filterMap.2 ⟨c, hc, hfn⟩)

/-- Commands respect the names of functions, and the functions that they declare have room on top of
the layers of the environment. -/
def Config.HasRoom (D : List String) (N : Nat) (cs : List Command) (k : Config) : Prop :=
  (∀ c ∈ Command.partsOfAll cs, c.Respects D) ∧
    ∃ h, k.env.Layered D h ∧ h + (Command.functions cs).length ≤ N

namespace Config.HasRoom

variable {D : List String} {N : Nat} {c : Command} {cs : List Command} {k l : Config}

theorem respects (hk : HasRoom D N (c :: cs) k) : c.Respects D :=
  hk.1 c (Command.mem_partsOfAll_self c cs)

theorem mono (hk : HasRoom D N cs k) {bs : List Command}
    (hsub : (Command.partsOfAll bs).Sublist (Command.partsOfAll cs))
    (hl : ∀ h, k.env.Layered D h → l.env.Layered D h) : HasRoom D N bs l := by
  obtain ⟨hparts, h, henv, hN⟩ := hk
  have := Command.length_functions_le hsub
  exact ⟨fun d hd => hparts d (hsub.subset hd), h, hl h henv, by omega⟩

theorem rest (hk : HasRoom D N (c :: cs) k) (hl : l.env = k.env) : HasRoom D N cs l :=
  hk.mono (Command.partsOfAll_rest_sublist c cs) fun _ henv => hl ▸ henv

theorem bind (hk : HasRoom D N (c :: cs) k) {x : String} {v : Value} (hv : v.isClosure = false)
    (hl : l.env = Table.set k.env x v) : HasRoom D N cs l :=
  hk.mono (Command.partsOfAll_rest_sublist c cs) fun _ henv => hl ▸ henv.set (.plain hv)

theorem block (hk : HasRoom D N (c :: cs) k) {block : List Command} (hb : block ∈ c.blocks) :
    HasRoom D N block k :=
  hk.mono (Command.partsOfAll_block_sublist hb cs) fun _ henv => henv

theorem declare {fn : Function} {env : Environment} {s : State}
    (hk : HasRoom D N (.functionDecl fn :: cs) ⟨env, s⟩) :
    HasRoom D N cs ⟨Table.set env fn.name (.closure fn env), s⟩ := by
  have hbody := hk.respects.1 fn.body (by simp [Command.exprs])
  have hname := hk.respects.2 fn rfl
  obtain ⟨hparts, h, henv, hN⟩ := hk
  have hlen : (Command.functions (.functionDecl fn :: cs)).length =
      (Command.functions cs).length + 1 := by
    simp [Command.functions, Command.partsOfAll, Command.parts, Command.function?]
  have hsub := (Command.partsOfAll_rest_sublist (.functionDecl fn) cs).subset
  refine ⟨fun d hd => hparts d (hsub hd), h + 1, ?_, by omega⟩
  exact (henv.mono (Nat.le_succ h)).set (.closure hname hbody henv)

theorem nests_le (hk : HasRoom D N (c :: cs) k) {e : Expr} (he : e ∈ c.exprs) {limit : Number}
    {n : Nat} (hn : Nests limit k.state k.env e n) : n ≤ N := by
  have hidents := hk.respects.1 e he
  obtain ⟨-, h, henv, hN⟩ := hk
  have := hn.le henv hidents
  omega

theorem eval_meets (hk : HasRoom D N (c :: cs) k) {e : Expr} (he : e ∈ c.exprs) (limit : Number) :
    Meets (eval limit k.env k.state e) (fun _ => True)
      (fun f => N ≤ limit.countBelow → f.Shallow) := by
  apply (eval_nests limit k.env k.state e).weaken
  rintro f (hf | hn) hle
  · exact hf
  · have := hk.nests_le he hn
    omega

theorem evalComplex_meets {o : Options} (hk : HasRoom D N (c :: cs) k) {e : Expr}
    (he : e ∈ c.exprs) (context : String) :
    Meets (evalComplex o k.env k.state e context) (fun _ => True)
      (fun f => N ≤ o.maxCallDepth.countBelow → f.Shallow) :=
  SimplexScript.evalComplex_meets (hk.eval_meets he o.maxCallDepth) context
    fun _ _ _ _ => trivial

end Config.HasRoom

/-- Functions that are declared take the room that was left for them, and a block gives it back. -/
theorem hasRoom_guided (o : Options) (D : List String) (N : Nat) :
    Guided o (Config.HasRoom D N) (fun _ _ => True)
      (fun f => N ≤ o.maxCallDepth.countBelow → f.Shallow) where
  refl _ := trivial
  trans _ _ _ _ _ := trivial
  unknown _ _ _ _ := trivial
  rounds _ := trivial
  condition env s c cs e hk he :=
    evalCondition_meets (hk.eval_meets (Command.mem_exprs_of_condition he) o.maxCallDepth)
      fun _ _ _ _ => trivial
  complexDecl env s name e cs hk := by
    apply (declareComplex_meets name (hk.evalComplex_meets (by simp [Command.exprs]))).mono
    rintro k ⟨a, henv⟩
    exact ⟨hk.bind rfl henv, trivial⟩
  vertexDecl env s name cs hk :=
    declareVertex_yields (fun _ _ _ => ⟨hk.bind rfl rfl, trivial⟩) fun _ => trivial
  assign env s name e cs hk := by
    apply (assignComplex_meets name (hk.evalComplex_meets (by simp [Command.exprs]))
      (fun _ => trivial) (fun _ => trivial) (fun _ _ => trivial)).mono
    exact fun k henv => ⟨hk.rest henv, trivial⟩
  functionDecl env s fn cs hk := hk.declare
  enter k c cs block hk hb := hk.block hb
  leave env s c cs k hk _ _ _ := ⟨hk, trivial⟩
  done k c cs hk _ := hk.rest rfl

/-- In a program that uses no function as a value, no expression nests more calls than the program
declares functions, wherever in a run it is evaluated. So with a limit of at least so many levels
neither the program nor a document with its commands ends in calls nested too deep. -/
theorem first_order_calls_bounded (o : Options) (cs : List Command) (hcs : Command.FirstOrder cs) :
    (∀ σ, ∀ x ∈ trailAll o Environment.initial State.empty cs σ, ∀ e ∈ x.command.exprs, ∀ n,
      Nests o.maxCallDepth x.config.state x.config.env e n →
        n ≤ (Command.functions cs).length) ∧
    ((Number.ofInt (Command.functions cs).length).le o.maxCallDepth = true →
      (Command.functions cs).length ≤ (Number.infinite false).countBelow →
      (∀ σ limit τ, evaluate o cs σ ≠ .error (.callsTooDeep limit) τ) ∧
      ∀ doc p, Document.checkProgram doc = .accepted p → p.commands = cs →
        ∀ σ limit τ, run doc o σ ≠ .error (.callsTooDeep limit) τ) := by
  have hG := hasRoom_guided o ((Command.functions cs).map Function.name) (Command.functions cs).length
  have hroom : Config.initial.HasRoom ((Command.functions cs).map Function.name)
      (Command.functions cs).length cs :=
    ⟨hcs.respects, 0, Environment.layered_initial _, by omega⟩
  constructor
  · intro σ x hx e he n hn
    have htrail := hG.trailAll_tracks (fun _ _ => trivial) Environment.initial State.empty cs hroom σ
    obtain ⟨ds, hstop⟩ := htrail.1 x hx
    exact hstop.nests_le he hn
  · intro hlimit hcount
    have hlevels := Number.le_countBelow hlimit hcount
    have hexec : Meets (evaluate o cs) (fun _ => True) Fault.Shallow :=
      ((hG.execAll_meets _ _ cs hroom).mono fun _ _ => trivial).weaken fun f hf => hf hlevels
    constructor
    · intro σ limit τ h
      exact hexec.of_error h
    · rintro doc p hp rfl σ limit τ h
      have hrun : Meets (run doc o) (fun _ => True) Fault.Shallow := by
        refine run_meets (P := fun _ => True) doc o (fun _ => trivial) ?_ ?_
        · intro q hq
          rw [hp] at hq
          cases hq
          exact hexec
        · intro k n _
          apply (summaries_fault n k.state k.env).weaken
          rintro f ⟨a, rfl⟩
          trivial
      exact hrun.of_error h

/-- A loop declares a function over one that is declared before it, and calls it in nested calls. The
limit is the least that will do. -/
theorem first_order_calls_bounded_nested :
    let program := [Command.complexDecl "A" (.complexLit ["a"]),
      .functionDecl ⟨"f", ["x"], .opCall "union" [.ident "x", .complexLit ["b"]] none⟩,
      .loop (.opCall "less" [.opCall "num_vert" [.ident "A"] none, .int (.ofInt 3)] none)
        [.functionDecl ⟨"g", ["x"], .funCall "f" [.funCall "f" [.ident "x"]]⟩,
          .assign "A" (.funCall "g" [.funCall "g"
            [.opCall "union" [.ident "A", .complexLit ["c"]] none]])]]
    let limited (n : Nat) : Options := { Options.default with maxCallDepth := .ofInt n }
    Command.FirstOrder program ∧ (Command.functions program).length = 2 ∧
      (∀ σ limit τ, evaluate (limited 2) program σ ≠ .error (.callsTooDeep limit) τ) ∧
      (∃ k τ, evaluate (limited 2) program .empty = .ok k τ) ∧
      ∃ limit τ, evaluate (limited 1) program .empty = .error (.callsTooDeep limit) τ := by
  intro program limited
  have hfirst : Command.FirstOrder program := by
    unfold Command.FirstOrder
    decide +kernel
  have hlen : (Command.functions program).length = 2 := by decide +kernel
  have hok : (match evaluate (limited 2) program .empty with
    | .ok _ _ => true
    | .error _ _ => false) = true := by decide +kernel
  have hdeep : (match evaluate (limited 1) program .empty with
    | .error (.callsTooDeep _) _ => true
    | _ => false) = true := by decide +kernel
  have hlimit : (Number.ofInt (Command.functions program).length).le (limited 2).maxCallDepth =
      true := by
    rw [hlen]
    decide +kernel
  have hcount : (Command.functions program).length ≤ (Number.infinite false).countBelow := by
    rw [hlen]
    decide +kernel
  refine ⟨hfirst, hlen, ?_, ?_, ?_⟩
  · exact ((first_order_calls_bounded (limited 2) program hfirst).2 hlimit hcount).1
  · clear_value program limited
    split at hok
    next k τ h => exact ⟨k, τ, h⟩
    next => cases hok
  · clear_value program limited
    split at hdeep
    next limit τ h => exact ⟨limit, τ, h⟩
    next => cases hdeep

end SimplexScript
