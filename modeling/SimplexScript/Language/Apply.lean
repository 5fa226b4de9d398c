import SimplexScript.Homology
import SimplexScript.Language.State
import SimplexScript.Language.Value

/-!
# Applying operators

Only a gluing takes a mapping and only picking reads the vertex order. The
mapping is judged first, then the number of arguments, then their kinds from
left to right; a fold judges the kinds before it asks for an argument.
-/

set_option autoImplicit false

namespace SimplexScript

def truth (b : Bool) : Number := .ofInt (if b then 1 else 0)

def isTrue (a : Number) : Bool := !decide (a = .zero)

/-- The result of an arithmetic rule; a missing argument counts as zero. -/
def Arithmetic.compute (rule : Arithmetic) (args : List Number) : Number :=
  let a := args.head?.getD .zero
  let b := (args.drop 1).head?.getD .zero
  match rule with
  | add => a.add b
  | sub => a.sub b
  | mul => a.mul b
  | and => truth (isTrue a && isTrue b)
  | or => truth (isTrue a || isTrue b)
  | not => truth (!isTrue a)
  | greater => truth (b.lt a)
  | less => truth (a.lt b)
  | leq => truth (a.le b)
  | geq => truth (b.le a)

def Observation.measure (o : Observation) (c : Complex) (args : List Number) :
    Except Fault Number :=
  match o with
  | dimension => .ok (.ofInt c.dimension)
  | vertexCount => .ok (.ofInt c.vertexCount)
  | simplexCount => do
    let n ← c.simplexCount
    return .ofInt n
  | betti => do
    let b ← Homology.bettiAt c (args.head?.getD .zero)
    return .ofInt b

def Fold.combine : Fold → Complex → Complex → Except Fault Complex
  | union => Complex.union
  | join => Complex.join

def Fold.combineAll (f : Fold) (c : Complex) : List Complex → Except Fault Complex
  | [] => .ok c
  | d :: rest => do
    let e ← f.combine c d
    combineAll f e rest

namespace Operator

def argument (op : Operator) : String := op.name ++ " argument"

def complexes (op : Operator) : List Value → Except Fault (List Complex)
  | [] => .ok []
  | v :: vs => do
    let c ← v.expectComplex op.argument
    let cs ← complexes op vs
    return c :: cs

def numbers (op : Operator) : List Value → Except Fault (List Number)
  | [] => .ok []
  | v :: vs => do
    let a ← v.expectInt op.argument
    let as ← numbers op vs
    return a :: as

def rejectMapping (op : Operator) (mapping : Option Complex.Mapping) : Except Fault Unit :=
  match mapping with
  | none => .ok ()
  | some _ => .error (.misuse (op.name ++ " does not accept a mapping"))

def arity (op : Operator) (expected : Nat) (args : List Value) : Fault :=
  .arityMismatch (Number.ofInt expected).text (.ofInt args.length) op.name

def apply (op : Operator) (args : List Value) (mapping : Option Complex.Mapping)
    (order : Table String Number) : Except Fault Value :=
  match op.rule with
  | .glue =>
    match mapping with
    | none => .error (.misuse "glue requires a mapping")
    | some m =>
      match args with
      | [a, b] => do
        let k ← a.expectComplex op.argument
        let l ← b.expectComplex op.argument
        let c ← k.glue l m
        return .complex c
      | _ => .error (op.arity 2 args)
  | .pick => do
    op.rejectMapping mapping
    match args with
    | [a] =>
      let c ← a.expectComplex op.argument
      let d ← c.pick order
      return .complex d
    | _ => .error (op.arity 1 args)
  | .fold f => do
    op.rejectMapping mapping
    let cs ← op.complexes args
    match cs with
    | [] => .error (.arityMismatch "at least 1" (.ofInt 0) op.name)
    | c :: rest =>
      let d ← f.combineAll c rest
      return .complex d
  | .observe o => do
    op.rejectMapping mapping
    if args.length = o.params.length then
      match args with
      | [] => .error (op.arity o.params.length args)
      | a :: rest =>
        let c ← a.expectComplex op.argument
        let ks ← op.numbers rest
        let n ← o.measure c ks
        return .int n
    else .error (op.arity o.params.length args)
  | .compute a => do
    op.rejectMapping mapping
    if args.length = a.arity then
      let ks ← op.numbers args
      let n := a.compute ks
      if n.isSafe then return .int n else .error (.integerOverflow op.name n)
    else .error (op.arity a.arity args)

/-- What is learned when an operator was applied: a picked vertex is known from then on. -/
def learnFrom (op : Operator) (args : List Value) (order : Table String Number) (n : Notes) :
    Notes :=
  match op.rule, args with
  | .pick, [.complex c] =>
    match c.latestVertex? order with
    | some v => n.learn c v
    | none => n
  | _, _ => n

/-- Applies an operator to its arguments as they are known by then. -/
def perform (op : Operator) (args : List Value) (mapping : Option Complex.Mapping)
    (order : Table String Number) : Noted Value := fun n =>
  let known := args.map (Value.viewed n)
  match op.apply known mapping order with
  | .ok v => .ok v (op.learnFrom known order n)
  | .error e => .error e n

end Operator

end SimplexScript
