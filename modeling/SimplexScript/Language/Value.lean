import SimplexScript.Complex.Algebra

/-!
# Forms and values

The expressions and commands of the language, its operators, and what a name can
stand for. A form that is none of these is kept as `unknown`, and running it is
an error. Complexes, integers and functions are also what expressions have as
values; addresses, vertices and operators are only ever reached through a name.
An integer doubles as a truth value, zero for false.
-/

set_option autoImplicit false

namespace SimplexScript

inductive Expr where
  | ident (name : String)
  | complexLit (vertices : List String)
  | int (value : Number)
  | opCall (op : String) (args : List Expr) (mapping : Option Complex.Mapping)
  | funCall (name : String) (args : List Expr)
  | unknown

structure Function where
  name : String
  params : List String
  body : Expr

inductive Command where
  | complexDecl (name : String) (expr : Expr)
  | vertexDecl (name : String)
  | assign (name : String) (expr : Expr)
  | branch (cond : Expr) (yes no : List Command)
  | loop (cond : Expr) (body : List Command)
  | functionDecl (fn : Function)
  | unknown

namespace Command

def describe : Command → String
  | complexDecl name _ => "complex " ++ name
  | vertexDecl name => "vertex " ++ name
  | assign name _ => "assign " ++ name
  | branch _ _ _ => "if"
  | loop _ _ => "while"
  | functionDecl fn => "function " ++ fn.name ++ "(" ++ String.intercalate ", " fn.params ++ ")"
  | unknown => ""

end Command

inductive Fold where
  | union
  | join
  deriving DecidableEq, Repr

inductive Observation where
  | dimension
  | vertexCount
  | simplexCount
  | betti
  deriving DecidableEq, Repr

inductive Arithmetic where
  | add
  | sub
  | mul
  | and
  | or
  | not
  | greater
  | less
  | leq
  | geq
  deriving DecidableEq, Repr

inductive Rule where
  | fold (f : Fold)
  | glue
  | pick
  | observe (o : Observation)
  | compute (a : Arithmetic)
  deriving DecidableEq, Repr

structure Operator where
  name : String
  rule : Rule
  deriving DecidableEq, Repr

def Observation.params : Observation → List String
  | dimension => ["complex"]
  | vertexCount => ["complex"]
  | simplexCount => ["complex"]
  | betti => ["complex", "int"]

def Arithmetic.arity : Arithmetic → Nat
  | not => 1
  | _ => 2

abbrev Registry := Table String Operator

namespace Registry

/-- Every operator under its own name, a later one in place of an earlier. -/
def ofList (ops : List Operator) : Registry :=
  Table.setAll [] (ops.map fun op => (op.name, op))

def register (r : Registry) (op : Operator) : Registry := Table.set r op.name op

def merge (rs : List Registry) : Registry := rs.foldl Table.setAll []

def constructive : Registry :=
  ofList [⟨"union", .fold .union⟩, ⟨"join", .fold .join⟩, ⟨"glue", .glue⟩, ⟨"pick_vert", .pick⟩]

def observational : Registry :=
  ofList [⟨"dim", .observe .dimension⟩, ⟨"num_vert", .observe .vertexCount⟩,
    ⟨"num_simplices", .observe .simplexCount⟩, ⟨"betti", .observe .betti⟩]

def arithmetic : Registry :=
  ofList [⟨"add", .compute .add⟩, ⟨"sub", .compute .sub⟩, ⟨"mul", .compute .mul⟩,
    ⟨"and", .compute .and⟩, ⟨"or", .compute .or⟩, ⟨"not", .compute .not⟩,
    ⟨"greater", .compute .greater⟩, ⟨"less", .compute .less⟩, ⟨"leq", .compute .leq⟩,
    ⟨"geq", .compute .geq⟩]

def standard : Registry := merge [constructive, observational, arithmetic]

end Registry

inductive Value where
  | complex (value : Complex)
  | int (value : Number)
  | closure (fn : Function) (env : List (String × Value))
  | loc (address : Number)
  | vertex (name : String)
  | operator (op : Operator)

/-- Names with what they stand for. A function keeps the environment of its declaration. -/
abbrev Environment := Table String Value

namespace Value

def kind : Value → String
  | complex _ => "complex"
  | int _ => "integer"
  | closure _ _ => "function"
  | loc _ => "address"
  | vertex _ => "vertex"
  | operator _ => "operator"

def isComplex : Value → Bool
  | complex _ => true
  | _ => false

def isInt : Value → Bool
  | int _ => true
  | _ => false

def isClosure : Value → Bool
  | closure _ _ => true
  | _ => false

def isExpressible (v : Value) : Bool := v.isComplex || v.isInt || v.isClosure

def viewed (n : Notes) : Value → Value
  | complex c => complex (n.view c)
  | v => v

def expectComplex (context : String) : Value → Except Fault Complex
  | complex c => .ok c
  | v => .error (.typeMismatch "complex" v.kind context)

def expectInt (context : String) : Value → Except Fault Number
  | int a => .ok a
  | v => .error (.typeMismatch "integer" v.kind context)

end Value

namespace Environment

def lookup (env : Environment) (name : String) : Except Fault Value :=
  match Table.get? env name with
  | some v => .ok v
  | none => .error (.unboundIdentifier name)

def ofRegistry (r : Registry) : Environment :=
  Table.setAll [] (r.map fun e => (e.1, Value.operator e.2))

def initial : Environment := ofRegistry Registry.standard

end Environment

end SimplexScript
