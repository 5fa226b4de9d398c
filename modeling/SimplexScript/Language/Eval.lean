import SimplexScript.Language.Apply
import SimplexScript.Language.State

/-!
# Evaluating expressions

An expression is evaluated in an environment and a state and changes neither;
what it learns of drafts goes into the notes. Calls may nest only so deep:
`callWithin` gives the meaning of a call that has so many levels left, so the
recursion is on expressions and, inside a call, on the levels.
-/

set_option autoImplicit false

namespace SimplexScript

abbrev Call := Environment → Expr → Noted Value

/-- The value of a name. An address is read and a vertex becomes a complex of one point. -/
def evalName (env : Environment) (s : State) (name : String) : Noted Value := do
  let v ← env.lookup name
  match v with
  | .loc address =>
    let c ← s.access address
    return .complex c
  | .vertex w => return .complex (Complex.point w)
  | .operator _ => throw (.notAValue name)
  | v => return v

def bindParams (fn : Function) (captured : Environment) (args : List Value) : Environment :=
  Table.setAll captured (fn.params.zip args)

mutual

def evalWith (call : Call) (env : Environment) (s : State) : Expr → Noted Value
  | .ident name => evalName env s name
  | .complexLit vertices => do
    let c ← Complex.ofVertices vertices
    return .complex c
  | .int a => if a.isSafe then pure (.int a) else throw (.integerOverflow "literal" a)
  | .opCall op args mapping => do
    let v ← env.lookup op
    match v with
    | .operator o =>
      let vs ← evalArgs call env s args
      o.perform vs mapping s.vertexOrder
    | _ => throw (.notAnOperator op)
  | .funCall name args => do
    let v ← env.lookup name
    match v with
    | .closure fn captured =>
      if args.length = fn.params.length then
        let vs ← evalArgs call env s args
        call (bindParams fn captured vs) fn.body
      else
        throw (.arityMismatch (Number.ofInt fn.params.length).text (.ofInt args.length) name)
    | _ => throw (.notAFunction name)
  | .unknown => throw .unknownForm

def evalArgs (call : Call) (env : Environment) (s : State) : List Expr → Noted (List Value)
  | [] => pure []
  | e :: es => do
    let v ← evalWith call env s e
    let vs ← evalArgs call env s es
    return v :: vs

end

/-- A call with so many levels left, this one included. -/
def callWithin (limit : Number) (s : State) : Nat → Call
  | 0, _, _ => throw (.callsTooDeep limit)
  | levels + 1, env, body => evalWith (callWithin limit s levels) env s body

def eval (maxCallDepth : Number) (env : Environment) (s : State) (e : Expr) : Noted Value :=
  evalWith (callWithin maxCallDepth s maxCallDepth.countBelow) env s e

end SimplexScript
