import SimplexScript.Proofs.Language.FreshNumbers
import SimplexScript.Proofs.Language.Machine
import SimplexScript.Proofs.Language.Trail

/-!
# Termination

Limits that the counters of the machine can meet bound every run: with enough
fuel it reaches the outcome of `eval` and `execAll`. The one exception is a
vertex declaration whose search for a free number has no end. Counters come to
rest at 2 ^ 53, so a greater limit is never met: a function that is applied to
itself uses up any amount of fuel then, and so does a loop whose condition
always holds.
-/

set_option autoImplicit false

namespace SimplexScript

open Fueled

section Expressions

variable {limit : Number} {s : State} {depth : Number}

mutual

theorem evalFueled_reaches {call : Call} (hcall : ∀ env body n,
      Reaches (fun fuel => callFueled limit s fuel depth env body) (call env body) n)
    (env : Environment) : ∀ (e : Expr) (n : Notes),
      Reaches (fun fuel => evalFueled limit s fuel depth env e) (evalWith call env s e) n
  | .ident name, n => by
    apply Reaches.of_succ
    simp only [evalFueled, evalWith]
    exact .free _ n
  | .complexLit vertices, n => by
    apply Reaches.of_succ
    simp only [evalFueled, evalWith]
    exact .free _ n
  | .int a, n => by
    apply Reaches.of_succ
    simp only [evalFueled, evalWith]
    exact .free _ n
  | .opCall op args mapping, n => by
    apply Reaches.of_succ
    simp only [evalFueled, evalWith]
    apply Reaches.bind (.free _ n)
    intro v n _
    cases v with
    | operator o =>
      apply (argsFueled_reaches hcall env args n).bind
      exact fun vs n _ => .free _ n
    | _ => exact .throw _ n
  | .funCall name args, n => by
    apply Reaches.of_succ
    simp only [evalFueled, evalWith]
    apply Reaches.bind (.free _ n)
    intro v n _
    cases v with
    | closure fn captured =>
      dsimp only
      split
      · apply (argsFueled_reaches hcall env args n).bind
        exact fun vs n _ => hcall _ _ n
      · exact .throw _ n
    | _ => exact .throw _ n
  | .unknown, n => by
    apply Reaches.of_succ
    simp only [evalFueled, evalWith]
    exact .throw _ n

theorem argsFueled_reaches {call : Call} (hcall : ∀ env body n,
      Reaches (fun fuel => callFueled limit s fuel depth env body) (call env body) n)
    (env : Environment) : ∀ (es : List Expr) (n : Notes),
      Reaches (fun fuel => argsFueled limit s fuel depth env es) (evalArgs call env s es) n
  | [], n => by
    apply Reaches.of_succ
    simp only [argsFueled, evalArgs]
    exact .pure _ n
  | e :: es, n => by
    apply Reaches.of_succ
    simp only [argsFueled, evalArgs]
    apply (evalFueled_reaches hcall env e n).bind
    intro v n _
    apply (argsFueled_reaches hcall env es n).bind
    exact fun vs n _ => .pure _ n

end

theorem callFueled_reaches (hd : limit.le (.ofInt (2 ^ 53)) = true) {levels depth : Nat}
    (h : limit.countBelow - depth = levels) (env : Environment) (body : Expr) (n : Notes) :
    Reaches (fun fuel => callFueled limit s fuel (.ofInt depth) env body)
      (callWithin limit s levels env body) n := by
  induction levels generalizing depth env body n with
  | zero =>
    have hover : limit.countBelow ≤ depth := by omega
    apply Reaches.of_succ
    simp only [callFueled, callWithin, Number.countBelow_of_le hd, hover, decide_true, if_true]
    exact .throw _ n
  | succ levels ih =>
    have hbelow : ¬ limit.countBelow ≤ depth := by omega
    have hrest := Number.countBelow_le hd
    apply Reaches.of_succ
    simp only [callFueled, callWithin, Number.countBelow_of_le hd, hbelow, decide_false,
      Bool.false_eq_true, if_false]
    rw [Number.add_one (by omega)]
    exact evalFueled_reaches (ih (by omega)) env body n

theorem eval_reaches (hd : limit.le (.ofInt (2 ^ 53)) = true) (depth : Nat) (env : Environment)
    (e : Expr) (n : Notes) :
    Reaches (fun fuel => evalFueled limit s fuel (.ofInt depth) env e)
      (evalWith (callWithin limit s (limit.countBelow - depth)) env s e) n :=
  evalFueled_reaches (callFueled_reaches hd rfl) env e n

end Expressions

/-- A vertex declaration whose search for a free number has no end. -/
def Station.Endless (x : Station) : Prop :=
  (∃ name, x.command = .vertexDecl name) ∧ x.config.state.fresh = .error .unending

section Search

variable {order : Table String Number}

theorem seekFueled_of_firstFree {tries : Nat} {a id : Number}
    (h : State.firstFree (fun id => Table.contains order (State.numberName id)) tries a = some id)
    {fuel : Nat} (hfuel : tries ≤ fuel) : seekFueled order fuel a = pure id := by
  induction tries generalizing a fuel with
  | zero => cases h
  | succ tries ih =>
    obtain ⟨rest, rfl⟩ : ∃ rest, fuel = rest + 1 := ⟨fuel - 1, by omega⟩
    rw [State.firstFree] at h
    rw [seekFueled]
    split at h
    next ht =>
      rw [if_pos ht]
      exact ih h (by omega)
    next ht =>
      rw [if_neg ht, Option.some.inj h]

theorem seekFueled_eq_exhausted {a : Number} (h : ∀ n b, ¬ State.Seeks order n a b) (fuel : Nat) :
    seekFueled order fuel a = exhausted := by
  induction fuel generalizing a with
  | zero => rfl
  | succ fuel ih =>
    rw [seekFueled]
    cases ht : Table.contains order (State.numberName a) with
    | true => exact ih fun n b hseeks => h (n + 1) b (.round ht hseeks)
    | false => exact absurd (.done ht) (h 0 a)

theorem vertexFueled_reaches {env : Environment} {s : State} (name : String)
    (h : s.fresh ≠ .error .unending) (σ : Session) :
    Reaches (fun fuel => vertexFueled fuel env s name) (declareVertex env s name) σ := by
  cases hfirst : State.firstFree (fun id => Table.contains s.vertexOrder (State.numberName id))
      (s.vertexOrder.length + 1) s.freshVertexId with
  | none => exact absurd (by simp only [State.fresh, hfirst]) h
  | some id =>
    refine ⟨s.vertexOrder.length + 1, ?_⟩
    intro fuel hfuel
    simp only [vertexFueled, seekFueled_of_firstFree hfirst hfuel, declareVertex, State.fresh,
      hfirst]
    rfl

end Search

section Commands

variable {o : Options}

theorem complexFueled_reaches (hd : o.maxCallDepth.le (.ofInt (2 ^ 53)) = true)
    (env : Environment) (s : State) (e : Expr) (context : String) (n : Notes) :
    Reaches (fun fuel => complexFueled o fuel env s e context)
      (evalComplex o env s e context) n :=
  (eval_reaches hd 0 env e n).bind fun _ n _ => .free _ n

theorem conditionFueled_reaches (hd : o.maxCallDepth.le (.ofInt (2 ^ 53)) = true)
    (env : Environment) (e : Expr) (s : State) (n : Notes) :
    Reaches (fun fuel => conditionFueled o fuel env e s) (evalCondition o env e s) n := by
  apply (eval_reaches hd 0 env e n).bind
  intro v n _
  apply Reaches.bind (.free _ n)
  exact fun a n _ => .pure _ n

theorem declareFueled_reaches (hd : o.maxCallDepth.le (.ofInt (2 ^ 53)) = true)
    (env : Environment) (s : State) (name : String) (e : Expr) (n : Notes) :
    Reaches (fun fuel => declareFueled o fuel env s name e) (declareComplex o env s name e) n :=
  (complexFueled_reaches hd env s e _ n).bind fun _ n _ => .pure _ n

theorem assignFueled_reaches (hd : o.maxCallDepth.le (.ofInt (2 ^ 53)) = true)
    (env : Environment) (s : State) (name : String) (e : Expr) (n : Notes) :
    Reaches (fun fuel => assignFueled o fuel env s name e) (assignComplex o env s name e) n := by
  apply Reaches.bind (.free _ n)
  intro target n _
  cases target with
  | loc address =>
    apply (complexFueled_reaches hd env s e _ n).bind
    intro c n _
    apply Reaches.bind (.free _ n)
    exact fun t n _ => .pure _ n
  | _ => exact .throw _ n

def Ends (xs : List Station) : Prop := ∀ x ∈ xs, ¬ x.Endless

theorem Ends.tail {x : Station} {xs : List Station} (h : Ends (x :: xs)) : Ends xs :=
  fun y hy => h y (List.mem_cons_of_mem x hy)

theorem Ends.left {xs ys : List Station} (h : Ends (xs ++ ys)) : Ends xs :=
  fun y hy => h y (List.mem_append_left ys hy)

theorem Ends.right {xs ys : List Station} (h : Ends (xs ++ ys)) : Ends ys :=
  fun y hy => h y (List.mem_append_right xs hy)

theorem blockFueled_reaches {env : Environment} {s : State} {cs : List Command} {σ : Session}
    (h : Reaches (fun fuel => execAllFueled o fuel env s cs) (execAll o env s cs) σ) :
    Reaches (fun fuel => blockFueled o fuel env s cs)
      (execAll o env s cs >>= fun after => pure (after.state.rollback s.nextLoc)) σ := by
  apply Reaches.of_succ
  simp only [blockFueled]
  exact h.bind fun after τ _ => .pure _ τ

theorem branchFueled_reaches {env : Environment} {s : State} {cs : List Command} {σ : Session}
    (h : Reaches (fun fuel => execAllFueled o fuel env s cs) (execAll o env s cs) σ) :
    Reaches (fun fuel => blockFueled o fuel env s cs >>= fun t => pure (⟨env, t⟩ : Config))
      (execAll o env s cs >>= fun after => pure ⟨env, after.state.rollback s.nextLoc⟩) σ := by
  have hblock := (blockFueled_reaches h).bind fun t τ _ => .pure (⟨env, t⟩ : Config) τ
  simpa only [bind_assoc, pure_bind] using hblock

/-- A loop whose block reaches its outcome from every state does so itself, since each round is one
less of those that the limit allows. -/
theorem loopFueled_reaches (hi : o.maxIterations.le (.ofInt (2 ^ 53)) = true)
    (hd : o.maxCallDepth.le (.ofInt (2 ^ 53)) = true) (env : Environment) (cond : Expr)
    {body : List Command} {station : State → Station}
    (hbody : ∀ s σ, Ends (trailAll o env s body σ) →
      Reaches (fun fuel => blockFueled o fuel env s body)
        (execAll o env s body >>= fun after => pure (after.state.rollback s.nextLoc)) σ)
    {left rounds : Nat} (h : o.maxIterations.countBelow - rounds = left) (s : State) (σ : Session)
    (hends : Ends (roundsTrail station (evalCondition o env cond)
      (fun t => execAll o env t body >>= fun after => pure (after.state.rollback t.nextLoc))
      (fun t τ => trailAll o env t body τ) left s σ)) :
    Reaches (fun fuel => loopFueled o fuel (.ofInt rounds) env cond body s)
      (repeatWhile o.maxIterations (evalCondition o env cond)
        (fun t => execAll o env t body >>= fun after => pure (after.state.rollback t.nextLoc))
        left s) σ := by
  induction left generalizing rounds s σ with
  | zero =>
    have hover : o.maxIterations.countBelow ≤ rounds := by omega
    apply Reaches.of_succ
    simp only [loopFueled, repeatWhile, Number.countBelow_of_le hi, hover, decide_true, if_true]
    apply (conditionFueled_reaches hd env cond s σ.notes).silent.bind
    intro again τ _
    cases again with
    | true => exact .throw _ τ
    | false => exact .pure _ τ
  | succ left ih =>
    have hbelow : ¬ o.maxIterations.countBelow ≤ rounds := by omega
    have hrest := Number.countBelow_le hi
    apply Reaches.of_succ
    simp only [loopFueled, repeatWhile, Number.countBelow_of_le hi, hbelow, decide_false,
      Bool.false_eq_true, if_false]
    apply (conditionFueled_reaches hd env cond s σ.notes).silent.bind
    intro again τ hagain
    simp only [roundsTrail, Traced.andThen, hagain] at hends
    cases again with
    | true =>
      apply (hbody s τ hends.left).bind
      intro t υ ht
      simp only [if_true, ht] at hends
      rw [Number.add_one (by omega)]
      exact ih (by omega) t υ hends.right.tail
    | false => exact .pure _ τ

mutual

theorem execFueled_reaches (hi : o.maxIterations.le (.ofInt (2 ^ 53)) = true)
    (hd : o.maxCallDepth.le (.ofInt (2 ^ 53)) = true) (env : Environment) (s : State) :
    ∀ (c : Command) (σ : Session), Ends (trail o env s c σ) →
      Reaches (fun fuel => execFueled o fuel env s c) (exec o env s c) σ
  | .complexDecl name e, σ, _ => by
    apply Reaches.of_succ
    simp only [execFueled, exec]
    exact (Reaches.free _ σ).bind fun _ τ _ => (declareFueled_reaches hd env s name e τ.notes).silent
  | .vertexDecl name, σ, hends => by
    have hfresh : s.fresh ≠ .error .unending := by
      intro hend
      have hx : (⟨⟨env, s⟩, .vertexDecl name, false⟩ : Station) ∈
          trail o env s (.vertexDecl name) σ := by simp [trail]
      exact hends _ hx ⟨⟨name, rfl⟩, hend⟩
    apply Reaches.of_succ
    simp only [execFueled, exec]
    exact (Reaches.free _ σ).bind fun _ τ _ => vertexFueled_reaches name hfresh τ
  | .assign name e, σ, _ => by
    apply Reaches.of_succ
    simp only [execFueled, exec]
    exact (Reaches.free _ σ).bind fun _ τ _ => (assignFueled_reaches hd env s name e τ.notes).silent
  | .branch cond yes no, σ, hends => by
    apply Reaches.of_succ
    simp only [execFueled, exec]
    apply (Reaches.free _ σ).bind
    intro _ τ hτ
    apply (conditionFueled_reaches hd env cond s τ.notes).silent.bind
    intro holds υ hholds
    simp only [trail, Traced.andThen, hτ, hholds] at hends
    cases holds with
    | true => exact branchFueled_reaches (execAllFueled_reaches hi hd env s yes υ hends.tail)
    | false => exact branchFueled_reaches (execAllFueled_reaches hi hd env s no υ hends.tail)
  | .loop cond body, σ, hends => by
    apply Reaches.of_succ
    simp only [execFueled, exec]
    apply (Reaches.free _ σ).bind
    intro _ τ hτ
    simp only [trail, Traced.andThen, hτ] at hends
    have hbody : ∀ t υ, Ends (trailAll o env t body υ) →
        Reaches (fun fuel => blockFueled o fuel env t body)
          (execAll o env t body >>= fun after => pure (after.state.rollback t.nextLoc)) υ :=
      fun t υ ht => blockFueled_reaches (execAllFueled_reaches hi hd env t body υ ht)
    apply (loopFueled_reaches hi hd env cond hbody (Nat.sub_zero _) s τ hends.tail).bind
    exact fun t υ _ => .pure _ υ
  | .functionDecl fn, σ, _ => by
    apply Reaches.of_succ
    simp only [execFueled, exec]
    exact (Reaches.free _ σ).bind fun _ τ _ => .pure _ τ
  | .unknown, σ, _ => by
    apply Reaches.of_succ
    simp only [execFueled, exec]
    exact (Reaches.free _ σ).bind fun _ τ _ => .throw _ τ

theorem execAllFueled_reaches (hi : o.maxIterations.le (.ofInt (2 ^ 53)) = true)
    (hd : o.maxCallDepth.le (.ofInt (2 ^ 53)) = true) (env : Environment) (s : State) :
    ∀ (cs : List Command) (σ : Session), Ends (trailAll o env s cs σ) →
      Reaches (fun fuel => execAllFueled o fuel env s cs) (execAll o env s cs) σ
  | [], σ, _ => by
    apply Reaches.of_succ
    simp only [execAllFueled, execAll]
    exact .pure _ σ
  | c :: rest, σ, hends => by
    apply Reaches.of_succ
    simp only [execAllFueled, execAll]
    simp only [trailAll] at hends
    apply (execFueled_reaches hi hd env s c σ hends.left).bind
    intro next τ hnext
    simp only [Traced.andThen, hnext] at hends
    exact execAllFueled_reaches hi hd next.env next.state rest τ hends.right

end

end Commands

section Divergence

variable {env : Environment}

def selfApplication : Function := ⟨"f", ["g"], .funCall "g" [.ident "g"]⟩

section Application

variable {limit : Number} {s : State} {name : String} {captured : List (String × Value)}

theorem selfApplication_step {depth : Number} (hdepth : limit.le depth = false)
    (henv : env.lookup name = .ok (.closure selfApplication captured)) (fuel : Nat) (n : Notes) :
    evalFueled limit s (fuel + 3) depth env (.funCall name [.ident name]) n =
      evalFueled limit s (fuel + 1) (depth.add (.ofInt 1))
        (Table.set captured "g" (.closure selfApplication captured))
        (.funCall "g" [.ident "g"]) n := by
  have hargs : argsFueled limit s (fuel + 2) depth env [.ident name] n =
      .ok [.closure selfApplication captured] n := by
    rw [argsFueled, argsFueled, evalFueled, evalName, henv]
    rfl
  have hcall : callFueled limit s (fuel + 2) depth
      (bindParams selfApplication captured [.closure selfApplication captured])
      selfApplication.body = evalFueled limit s (fuel + 1) (depth.add (.ofInt 1))
        (Table.set captured "g" (.closure selfApplication captured))
        (.funCall "g" [.ident "g"]) := by
    rw [callFueled, hdepth]
    rfl
  rw [← hcall, evalFueled, henv]
  change EStateM.bind (argsFueled limit s (fuel + 2) depth env [.ident name]) _ n = _
  rw [EStateM.bind, hargs]

theorem selfApplication_exhausts (hlimit : (Number.ofInt (2 ^ 53)).lt limit = true)
    (henv : env.lookup name = .ok (.closure selfApplication captured)) (fuel depth : Nat)
    (n : Notes) :
    evalFueled limit s fuel (.ofInt (min depth (2 ^ 53) : Nat)) env
      (.funCall name [.ident name]) n = .error none n := by
  induction fuel using Nat.strongRecOn generalizing depth env name captured with
  | ind fuel ih =>
    match fuel, ih with
    | 0, _ => rfl
    | 1, _ =>
      rw [evalFueled, henv]
      rfl
    | 2, _ =>
      rw [evalFueled, henv]
      rfl
    | fuel + 3, ih =>
      rw [selfApplication_step (Number.le_ofInt_eq_false hlimit (by omega)) henv,
        Number.add_one_min]
      have hbound : Environment.lookup (Table.set captured "g" (.closure selfApplication captured))
          "g" = .ok (.closure selfApplication captured) := by
        simp only [Environment.lookup, Table.get?_set, if_true]
      exact ih (fuel + 1) (by omega) hbound (depth + 1)

end Application

def Fueled.Faultless {σ α : Type} (x : Fueled σ α) (good : α → Prop) : Prop :=
  ∀ s, (∃ t, x s = .error none t) ∨ ∃ a t, x s = .ok a t ∧ good a

/-- Under a limit that is never met, a loop whose condition always holds and whose rounds never end
in a fault uses up any amount of fuel. -/
theorem loop_exhausts {o : Options} (hlimit : (Number.ofInt (2 ^ 53)).lt o.maxIterations = true)
    {cond : Expr} {body : List Command}
    (hcond : ∀ fuel s, Faultless (conditionFueled o fuel env cond s) fun again => again = true)
    (hbody : ∀ fuel s, Faultless (blockFueled o fuel env s body) fun _ => True)
    (fuel rounds : Nat) (s : State) (σ : Session) :
    ∃ τ, loopFueled o fuel (.ofInt (min rounds (2 ^ 53) : Nat)) env cond body s σ =
      .error none τ := by
  induction fuel generalizing rounds s σ with
  | zero => exact ⟨σ, rfl⟩
  | succ fuel ih =>
    have hunmet : o.maxIterations.le (.ofInt (min rounds (2 ^ 53) : Nat)) = false :=
      Number.le_ofInt_eq_false hlimit (by omega)
    rw [loopFueled]
    simp only [hunmet, Number.add_one_min, Bind.bind, EStateM.bind, Fueled.silent]
    rcases hcond fuel s σ.notes with ⟨n, hc⟩ | ⟨again, n, hc, rfl⟩
    · exact ⟨_, by rw [hc]⟩
    · rw [hc]
      simp only [if_true, Bool.false_eq_true, if_false]
      rcases hbody fuel s { σ with notes := n } with ⟨τ, hb⟩ | ⟨t, τ, hb, -⟩
      · exact ⟨τ, by rw [EStateM.bind, hb]⟩
      · simp only [EStateM.bind, hb]
        exact ih (rounds + 1) t τ

theorem idle_loop_exhausts {o : Options}
    (hlimit : (Number.ofInt (2 ^ 53)).lt o.maxIterations = true) (fuel : Nat) (s : State)
    (σ : Session) : ∃ τ, loopFueled o fuel .zero env (.int (.ofInt 1)) [] s σ = .error none τ := by
  refine loop_exhausts hlimit ?_ ?_ fuel 0 s σ
  · rintro (_ | fuel) s n
    · exact .inl ⟨n, rfl⟩
    · exact .inr ⟨true, n, rfl, rfl⟩
  · rintro (_ | _ | fuel) s τ
    · exact .inl ⟨τ, rfl⟩
    · exact .inl ⟨τ, rfl⟩
    · exact .inr ⟨_, τ, rfl, trivial⟩

theorem execAllFueled_exhausts {o : Options} {c : Command} {s : State}
    {σ : Session} (hc : ∀ fuel, ∃ τ, execFueled o (fuel + 1) env s c σ = .error none τ)
    (rest : List Command) (fuel : Nat) :
    ∃ τ, execAllFueled o fuel env s (c :: rest) σ = .error none τ := by
  match fuel with
  | 0 => exact ⟨σ, rfl⟩
  | 1 => exact ⟨σ, rfl⟩
  | fuel + 2 =>
    obtain ⟨τ, hτ⟩ := hc fuel
    exact ⟨τ, by simp only [execAllFueled, Bind.bind, EStateM.bind, hτ]⟩

end Divergence

/-- Under limits of at most 2 ^ 53 every expression, at every depth of calls, reaches its outcome with
enough fuel, and more fuel does not change it. So does every sequence of commands whose run comes to
no search for a fresh vertex without end. Such a search is one that finds all numbers taken, from the
next one on up to 2 ^ 53. -/
theorem finite_limits_suffice {o : Options} (hi : o.maxIterations.le (.ofInt (2 ^ 53)) = true)
    (hd : o.maxCallDepth.le (.ofInt (2 ^ 53)) = true) (env : Environment) (s : State) :
    (∀ (depth : Nat) e n,
      Reaches (fun fuel => evalFueled o.maxCallDepth s fuel (.ofInt depth) env e)
        (evalWith (callWithin o.maxCallDepth s (o.maxCallDepth.countBelow - depth)) env s e) n) ∧
    (∀ e n, Reaches (fun fuel => evalFueled o.maxCallDepth s fuel .zero env e)
      (eval o.maxCallDepth env s e) n) ∧
    (∀ cs σ, (∀ x ∈ trailAll o env s cs σ, ¬ x.Endless) →
      Reaches (fun fuel => execAllFueled o fuel env s cs) (execAll o env s cs) σ) ∧
    ∀ x : Station, x.Endless → ∀ z : Int, -2 ^ 53 ≤ z → z ≤ 2 ^ 53 →
      x.config.state.freshVertexId = .ofInt z → ∀ j, z ≤ j → j ≤ 2 ^ 53 →
        "__v" ++ toString j ∈ Table.keys x.config.state.vertexOrder := by
  refine ⟨fun depth e n => eval_reaches hd depth env e n, fun e n => eval_reaches hd 0 env e n,
    fun cs σ => execAllFueled_reaches hi hd env s cs σ, ?_⟩
  rintro x ⟨-, hend⟩ z hlow hz hid
  rcases State.fresh_cases hlow hz hid with ⟨r, -, -, -, -, -, hfresh⟩ | ⟨-, hall⟩
  · cases hfresh.symm.trans hend
  · exact hall

/-- A function applied to itself inside of two loops, behind a fresh vertex. -/
theorem finite_limits_suffice_nested :
    let o : Options := ⟨.ofInt 2, .ofInt 3, false⟩
    let program := [.functionDecl selfApplication, .vertexDecl "x",
      .loop (.int (.ofInt 1)) [.loop (.int (.ofInt 1))
        [.complexDecl "M" (.funCall "f" [.ident "f"])]]]
    o.maxIterations.le (.ofInt (2 ^ 53)) = true ∧ o.maxCallDepth.le (.ofInt (2 ^ 53)) = true ∧
      (∀ x ∈ trailAll o Environment.initial .empty program .empty, ¬ x.Endless) ∧
      ∃ n τ, ∀ fuel, n ≤ fuel →
        execAllFueled o fuel Environment.initial .empty program .empty =
          .error (some (.callsTooDeep (.ofInt 3))) τ := by
  intro o program
  have hi : o.maxIterations.le (.ofInt (2 ^ 53)) = true := by decide
  have hd : o.maxCallDepth.le (.ofInt (2 ^ 53)) = true := by decide
  have hends : ∀ x ∈ trailAll o Environment.initial .empty program .empty, ¬ x.Endless := by
    have hall : (trailAll o Environment.initial .empty program .empty).all
        (fun x => decide (x.config.state.fresh.map Prod.fst ≠ .error .unending)) = true := by
      decide +kernel
    rintro x hx ⟨-, hend⟩
    have hx' := of_decide_eq_true (List.all_eq_true.1 hall x hx)
    rw [hend] at hx'
    exact hx' rfl
  obtain ⟨-, -, hreaches, -⟩ := finite_limits_suffice hi hd Environment.initial .empty
  refine ⟨hi, hd, hends, (hreaches program .empty hends).exists_error ?_⟩
  decide +kernel

/-- Finite limits above 2 ^ 53 are never met: neither a loop nor a function that is applied to itself
comes to an end. Nor does a search for a fresh vertex that rests at a taken number, whatever the limits
are. -/
theorem unmet_limits_exhaust :
    let o : Options := ⟨.ofInt (2 ^ 53 + 2), .ofInt (2 ^ 53 + 2), false⟩
    let env := Table.set Environment.initial "f" (.closure selfApplication Environment.initial)
    ∀ fuel,
      (∃ τ, execAllFueled o fuel Environment.initial .empty [.loop (.int (.ofInt 1)) []] .empty =
        .error none τ) ∧
      evalFueled o.maxCallDepth .empty fuel .zero env (.funCall "f" [.ident "f"]) .empty =
        .error none .empty ∧
      ∃ τ, execAllFueled .default fuel Environment.initial .resting [.vertexDecl "x"] .empty =
        .error none τ := by
  intro o env fuel
  have hlimit : (Number.ofInt (2 ^ 53)).lt (.ofInt (2 ^ 53 + 2)) = true := by decide
  refine ⟨?_, selfApplication_exhausts hlimit rfl fuel 0 .empty, ?_⟩
  · refine execAllFueled_exhausts (fun fuel => ?_) [] fuel
    rw [execFueled]
    have hidle : ∃ τ, loopFueled o fuel .zero Environment.initial (.int (.ofInt 1)) [] .empty
        .empty = .error none τ := idle_loop_exhausts hlimit fuel .empty .empty
    obtain ⟨τ, hloop⟩ := hidle
    have hquiet : free (announce o (.loop (.int (.ofInt 1)) [])) Session.empty = .ok () .empty := rfl
    exact ⟨τ, by simp only [Bind.bind, EStateM.bind, hquiet, hloop]⟩
  · refine execAllFueled_exhausts (fun fuel => ?_) [] fuel
    rw [execFueled]
    have hseek : seekFueled State.resting.vertexOrder fuel State.resting.freshVertexId = exhausted :=
      seekFueled_eq_exhausted (State.not_seeks_of_declared (by decide) (by decide)
        State.resting_declared) fuel
    exact ⟨.empty, by simp only [vertexFueled, hseek]; rfl⟩

end SimplexScript
