import SimplexScript.Complex.Summary
import SimplexScript.Document.Program
import SimplexScript.Language.Eval

/-!
# Executing commands

A command takes an environment and a state to new ones. The blocks of a branch
or a loop see the environment but bind nothing outside themselves, and the
addresses they allocate are given back when they end. A document is checked,
its commands are executed from the initial configuration, and every name that
is left bound to an address is reported with a summary of its complex.
-/

set_option autoImplicit false

namespace SimplexScript

structure Options where
  maxIterations : Number
  maxCallDepth : Number
  trace : Bool

def Options.default : Options := ⟨.ofInt 10000000, .ofInt 512, false⟩

structure Config where
  env : Environment
  state : State

def Config.initial : Config := ⟨Environment.initial, State.empty⟩

def evalComplex (o : Options) (env : Environment) (s : State) (e : Expr) (context : String) :
    Noted Complex := do
  let v ← eval o.maxCallDepth env s e
  v.expectComplex context

def evalCondition (o : Options) (env : Environment) (e : Expr) (s : State) : Noted Bool := do
  let v ← eval o.maxCallDepth env s e
  let a ← v.expectInt "condition"
  return isTrue a

/-- Logs a command if a trace is wanted. A form outside the language is not announced. -/
def announce (o : Options) : Command → Traced Unit
  | .unknown => throw .unknownForm
  | c => if o.trace then .line ("[Evaluator] " ++ c.describe) else pure ()

/-- Repeats a body while a condition holds, for at most so many rounds. -/
def repeatWhile (limit : Number) (cond : State → Noted Bool) (body : State → Traced State) :
    Nat → State → Traced State
  | 0, s => do
    let again ← Traced.silent (cond s)
    if again then throw (.tooManyRounds limit) else pure s
  | rounds + 1, s => do
    let again ← Traced.silent (cond s)
    if again then
      let t ← body s
      repeatWhile limit cond body rounds t
    else pure s

def declareComplex (o : Options) (env : Environment) (s : State) (name : String) (e : Expr) :
    Noted Config := do
  let c ← evalComplex o env s e ("declaration of " ++ name)
  let (address, t) := (s.declare c.vertices).allocate c
  return ⟨Table.set env name (.loc address), t⟩

def declareVertex (env : Environment) (s : State) (name : String) : Except Fault Config := do
  let (v, t) ← s.fresh
  return ⟨Table.set env name (.vertex v), t⟩

/-- The target is looked up before the expression is evaluated. -/
def assignComplex (o : Options) (env : Environment) (s : State) (name : String) (e : Expr) :
    Noted Config := do
  let target ← env.lookup name
  match target with
  | .loc address =>
    let c ← evalComplex o env s e ("assignment to " ++ name)
    let t ← s.update address c
    return ⟨env, t⟩
  | _ => throw (.notAVariable name)

mutual

def exec (o : Options) (env : Environment) (s : State) (c : Command) : Traced Config := do
  announce o c
  match c with
  | .complexDecl name e => Traced.silent (declareComplex o env s name e)
  | .vertexDecl name => declareVertex env s name
  | .assign name e => Traced.silent (assignComplex o env s name e)
  | .branch cond yes no =>
    let holds ← Traced.silent (evalCondition o env cond s)
    if holds then
      let after ← execAll o env s yes
      pure ⟨env, after.state.rollback s.nextLoc⟩
    else
      let after ← execAll o env s no
      pure ⟨env, after.state.rollback s.nextLoc⟩
  | .loop cond body =>
    let block := fun (t : State) => do
      let after ← execAll o env t body
      pure (after.state.rollback t.nextLoc)
    let t ← repeatWhile o.maxIterations (evalCondition o env cond) block
      o.maxIterations.countBelow s
    pure ⟨env, t⟩
  | .functionDecl fn => pure ⟨Table.set env fn.name (.closure fn env), s⟩
  | .unknown => throw .unknownForm

def execAll (o : Options) (env : Environment) (s : State) : List Command → Traced Config
  | [] => pure ⟨env, s⟩
  | c :: rest => do
    let next ← exec o env s c
    execAll o next.env next.state rest

end

def summaries (n : Notes) (s : State) : Environment → Except Fault (Table String Summary)
  | [] => .ok []
  | (name, .loc address) :: rest => do
    let c ← s.access address
    let others ← summaries n s rest
    return (name, Summary.ofComplex (n.view c)) :: others
  | _ :: rest => summaries n s rest

def collect (n : Notes) (k : Config) : Except Fault (Table String Summary) :=
  (summaries n k.state k.env).map Record.listing

def evaluate (o : Options) (commands : List Command) : Traced Config :=
  execAll o Config.initial.env Config.initial.state commands

def run (doc : Option Json) (o : Options) : Traced (Table String Summary) :=
  match Document.checkProgram doc with
  | .rejected issues => throw (.invalidDocument (issues.map fun i => (i.place, i.message)))
  | .accepted program => do
    let k ← evaluate o program.commands
    let session ← get
    collect session.notes k

end SimplexScript
