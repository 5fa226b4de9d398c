import SimplexScript.Language.Exec

/-!
# A machine with fuel

The evaluator once more, as a machine that does not know beforehand how long
it will run: it counts rounds and levels up from zero, compares each count
with its limit, seeks a fresh vertex one number after the other, and pays one
unit of fuel for every step down. Its counters are numbers, so they come to
rest.
-/

set_option autoImplicit false

namespace SimplexScript

/-- A computation that may also end because its fuel is used up. -/
abbrev Fueled (σ α : Type) := EStateM (Option Fault) σ α

namespace Fueled

variable {σ α β : Type}

def free (x : EStateM Fault σ α) : Fueled σ α := EStateM.adaptExcept some x

def exhausted : Fueled σ α := throw none

def silent (x : Fueled Notes α) : Fueled Session α := fun s =>
  match x s.notes with
  | .ok a n => .ok a { s with notes := n }
  | .error e n => .error e { s with notes := n }

end Fueled

open Fueled

mutual

def evalFueled (limit : Number) (s : State) :
    Nat → Number → Environment → Expr → Fueled Notes Value
  | 0, _, _, _ => exhausted
  | _ + 1, _, env, .ident name => free (evalName env s name)
  | _ + 1, _, _, .complexLit vertices => free do
    let c ← Complex.ofVertices vertices
    return .complex c
  | _ + 1, _, _, .int a => free (if a.isSafe then pure (.int a) else
      throw (.integerOverflow "literal" a))
  | fuel + 1, depth, env, .opCall op args mapping => do
    let v ← free (env.lookup op)
    match v with
    | .operator o =>
      let vs ← argsFueled limit s fuel depth env args
      free (o.perform vs mapping s.vertexOrder)
    | _ => throw (some (.notAnOperator op))
  | fuel + 1, depth, env, .funCall name args => do
    let v ← free (env.lookup name)
    match v with
    | .closure fn captured =>
      if args.length = fn.params.length then
        let vs ← argsFueled limit s fuel depth env args
        callFueled limit s fuel depth (bindParams fn captured vs) fn.body
      else
        throw (some (.arityMismatch (Number.ofInt fn.params.length).text (.ofInt args.length) name))
    | _ => throw (some (.notAFunction name))
  | _ + 1, _, _, .unknown => throw (some .unknownForm)

def argsFueled (limit : Number) (s : State) :
    Nat → Number → Environment → List Expr → Fueled Notes (List Value)
  | 0, _, _, _ => exhausted
  | _ + 1, _, _, [] => pure []
  | fuel + 1, depth, env, e :: es => do
    let v ← evalFueled limit s fuel depth env e
    let vs ← argsFueled limit s fuel depth env es
    return v :: vs

/-- A call from a depth that the limit must exceed. -/
def callFueled (limit : Number) (s : State) :
    Nat → Number → Environment → Expr → Fueled Notes Value
  | 0, _, _, _ => exhausted
  | fuel + 1, depth, env, body =>
    if limit.le depth then throw (some (.callsTooDeep limit))
    else evalFueled limit s fuel (depth.add (.ofInt 1)) env body

end

def complexFueled (o : Options) (fuel : Nat) (env : Environment) (s : State) (e : Expr)
    (context : String) : Fueled Notes Complex := do
  let v ← evalFueled o.maxCallDepth s fuel .zero env e
  free (v.expectComplex context)

def conditionFueled (o : Options) (fuel : Nat) (env : Environment) (e : Expr) (s : State) :
    Fueled Notes Bool := do
  let v ← evalFueled o.maxCallDepth s fuel .zero env e
  let a ← free (v.expectInt "condition")
  return isTrue a

def declareFueled (o : Options) (fuel : Nat) (env : Environment) (s : State) (name : String)
    (e : Expr) : Fueled Notes Config := do
  let c ← complexFueled o fuel env s e ("declaration of " ++ name)
  let (address, t) := (s.declare c.vertices).allocate c
  return ⟨Table.set env name (.loc address), t⟩

def assignFueled (o : Options) (fuel : Nat) (env : Environment) (s : State) (name : String)
    (e : Expr) : Fueled Notes Config := do
  let target ← free (env.lookup name)
  match target with
  | .loc address =>
    let c ← complexFueled o fuel env s e ("assignment to " ++ name)
    let t ← free (s.update address c)
    return ⟨env, t⟩
  | _ => throw (some (.notAVariable name))

def seekFueled (order : Table String Number) : Nat → Number → Fueled Session Number
  | 0, _ => exhausted
  | fuel + 1, id =>
    if Table.contains order (State.numberName id) then
      seekFueled order fuel (id.add (.ofInt 1))
    else pure id

def vertexFueled (fuel : Nat) (env : Environment) (s : State) (name : String) :
    Fueled Session Config := do
  let id ← seekFueled s.vertexOrder fuel s.freshVertexId
  let v := State.numberName id
  let t := State.declare { s with freshVertexId := id.add (.ofInt 1) } [v]
  return ⟨Table.set env name (.vertex v), t⟩

mutual

def execFueled (o : Options) : Nat → Environment → State → Command → Fueled Session Config
  | 0, _, _, _ => exhausted
  | fuel + 1, env, s, c => do
    free (announce o c)
    match c with
    | .complexDecl name e => silent (declareFueled o fuel env s name e)
    | .vertexDecl name => vertexFueled fuel env s name
    | .assign name e => silent (assignFueled o fuel env s name e)
    | .branch cond yes no =>
      let holds ← silent (conditionFueled o fuel env cond s)
      let t ← blockFueled o fuel env s (if holds then yes else no)
      pure ⟨env, t⟩
    | .loop cond body =>
      let t ← loopFueled o fuel .zero env cond body s
      pure ⟨env, t⟩
    | .functionDecl fn => pure ⟨Table.set env fn.name (.closure fn env), s⟩
    | .unknown => throw (some .unknownForm)

def blockFueled (o : Options) : Nat → Environment → State → List Command → Fueled Session State
  | 0, _, _, _ => exhausted
  | fuel + 1, env, s, cs => do
    let after ← execAllFueled o fuel env s cs
    pure (after.state.rollback s.nextLoc)

def loopFueled (o : Options) :
    Nat → Number → Environment → Expr → List Command → State → Fueled Session State
  | 0, _, _, _, _, _ => exhausted
  | fuel + 1, rounds, env, cond, body, s => do
    let again ← silent (conditionFueled o fuel env cond s)
    if again then
      if o.maxIterations.le rounds then throw (some (.tooManyRounds o.maxIterations))
      else
        let t ← blockFueled o fuel env s body
        loopFueled o fuel (rounds.add (.ofInt 1)) env cond body t
    else pure s

def execAllFueled (o : Options) :
    Nat → Environment → State → List Command → Fueled Session Config
  | 0, _, _, _ => exhausted
  | _ + 1, env, s, [] => pure ⟨env, s⟩
  | fuel + 1, env, s, c :: rest => do
    let next ← execFueled o fuel env s c
    execAllFueled o fuel next.env next.state rest

end

/-- From some amount of fuel on, the outcome is that of a computation which needs none. -/
def Reaches {σ α : Type} (x : Nat → Fueled σ α) (y : EStateM Fault σ α) (s : σ) : Prop :=
  ∃ n, ∀ fuel, n ≤ fuel → x fuel s = free y s

namespace Reaches

variable {σ α β : Type} {s : σ}

theorem free (y : EStateM Fault σ α) (s : σ) : Reaches (fun _ => free y) y s :=
  ⟨0, fun _ _ => rfl⟩

theorem pure (a : α) (s : σ) :
    Reaches (fun _ => (Pure.pure a : Fueled σ α)) (Pure.pure a) s := ⟨0, fun _ _ => rfl⟩

theorem throw (f : Fault) (s : σ) : Reaches (fun _ => (MonadExcept.throw (some f) : Fueled σ α))
    (MonadExcept.throw f) s := ⟨0, fun _ _ => rfl⟩

theorem of_succ {x : Nat → Fueled σ α} {y : EStateM Fault σ α}
    (h : Reaches (fun fuel => x (fuel + 1)) y s) : Reaches x y s := by
  obtain ⟨n, hn⟩ := h
  refine ⟨n + 1, ?_⟩
  intro fuel hfuel
  obtain ⟨rest, rfl⟩ : ∃ rest, fuel = rest + 1 := ⟨fuel - 1, by omega⟩
  exact hn rest (by omega)

theorem bind {x : Nat → Fueled σ α} {y : EStateM Fault σ α} {f : Nat → α → Fueled σ β}
    {g : α → EStateM Fault σ β} (hx : Reaches x y s)
    (hf : ∀ a t, y s = .ok a t → Reaches (fun fuel => f fuel a) (g a) t) :
    Reaches (fun fuel => x fuel >>= f fuel) (y >>= g) s := by
  obtain ⟨n, hn⟩ := hx
  simp only [Reaches, Bind.bind, EStateM.bind, Fueled.free, EStateM.adaptExcept] at hn hf ⊢
  cases hy : y s with
  | ok a t =>
    obtain ⟨m, hm⟩ := hf a t hy
    refine ⟨max n m, ?_⟩
    intro fuel hfuel
    rw [hn fuel (by omega), hy]
    exact hm fuel (by omega)
  | error e t =>
    refine ⟨n, ?_⟩
    intro fuel hfuel
    rw [hn fuel hfuel, hy]

theorem silent {x : Nat → Fueled Notes α} {y : Noted α} {s : Session} (h : Reaches x y s.notes) :
    Reaches (fun fuel => Fueled.silent (x fuel)) (Traced.silent y) s := by
  obtain ⟨n, hn⟩ := h
  refine ⟨n, ?_⟩
  intro fuel hfuel
  simp only [Fueled.silent, hn fuel hfuel, Fueled.free, EStateM.adaptExcept, Traced.silent]
  cases y s.notes <;> rfl

theorem exists_error {x : Nat → Fueled σ α} {y : EStateM Fault σ α} (h : Reaches x y s)
    {f : Fault} (hy : (match y s with
      | .ok _ _ => none
      | .error g _ => some g) = some f) :
    ∃ n t, ∀ fuel, n ≤ fuel → x fuel s = .error (some f) t := by
  obtain ⟨n, hn⟩ := h
  simp only [Fueled.free, EStateM.adaptExcept] at hn
  cases hs : y s with
  | ok a t => simp [hs] at hy
  | error g t =>
    obtain rfl : g = f := by simpa [hs] using hy
    exact ⟨n, t, by simpa only [hs] using hn⟩

end Reaches

end SimplexScript
