import SimplexScript.Number.Decimal

/-!
# Faults

Everything that can go wrong in the algebra of complexes, in a run or in a
document, by cause. `Fault.code` gives the class of a cause and
`Fault.message` its wording.
-/

set_option autoImplicit false

namespace SimplexScript

inductive Code where
  | incompatibleIdentification
  | degenerateSimplex
  | vertexNotFound
  | conflictingMapping
  | duplicateVertex
  | emptyComplex
  | simplexTooLarge
  | unboundIdentifier
  | notAValue
  | notAnOperator
  | notAFunction
  | notAVariable
  | typeError
  | arityError
  | usageError
  | integerOverflow
  | uninitializedAddress
  | nonTermination
  | validationError
  deriving DecidableEq, Repr

namespace Code

def all : List Code :=
  [incompatibleIdentification, degenerateSimplex, vertexNotFound, conflictingMapping,
    duplicateVertex, emptyComplex, simplexTooLarge, unboundIdentifier, notAValue, notAnOperator,
    notAFunction, notAVariable, typeError, arityError, usageError, integerOverflow,
    uninitializedAddress, nonTermination, validationError]

def name : Code → String
  | incompatibleIdentification => "IncompatibleIdentification"
  | degenerateSimplex => "DegenerateSimplex"
  | vertexNotFound => "VertexNotFound"
  | conflictingMapping => "ConflictingMapping"
  | duplicateVertex => "DuplicateVertex"
  | emptyComplex => "EmptyComplex"
  | simplexTooLarge => "SimplexTooLarge"
  | unboundIdentifier => "UnboundIdentifier"
  | notAValue => "NotAValue"
  | notAnOperator => "NotAnOperator"
  | notAFunction => "NotAFunction"
  | notAVariable => "NotAVariable"
  | typeError => "TypeError"
  | arityError => "ArityError"
  | usageError => "UsageError"
  | integerOverflow => "IntegerOverflow"
  | uninitializedAddress => "UninitializedAddress"
  | nonTermination => "NonTermination"
  | validationError => "ValidationError"

end Code

inductive Operand where
  | first
  | second
  deriving DecidableEq, Repr

def Operand.name : Operand → String
  | first => "first"
  | second => "second"

/-- A fault ends a run and is reported. The last one stands for a search that has no end: it is no
fault of the language and never reported, since such a run has no outcome. -/
inductive Fault where
  | incompatibleIdentification (operation detail : String)
  | degenerateSimplex (operation : String) (simplex image : List String)
  | vertexNotFound (vertex : String) (operand : Operand)
  | conflictingMapping (detail : String)
  | duplicateVertex (vertex : String)
  | emptyComplex
  | simplexTooLarge (size limit : Number)
  | unboundIdentifier (name : String)
  | notAValue (name : String)
  | notAnOperator (name : String)
  | notAFunction (name : String)
  | notAVariable (name : String)
  | typeMismatch (expected actual context : String)
  | arityMismatch (expected : String) (actual : Number) (name : String)
  | misuse (message : String)
  | integerOverflow (context : String) (value : Number)
  | uninitializedAddress (address : Number)
  | tooManyRounds (limit : Number)
  | callsTooDeep (limit : Number)
  | invalidDocument (issues : List (String × String))
  | unknownForm
  | unending
  deriving DecidableEq

def braced (vertices : List String) : String := "\x7b" ++ String.intercalate ", " vertices ++ "\x7d"

namespace Fault

/-- The class of a fault. A form outside the language belongs to none, nor does what is no fault. -/
def code : Fault → Option Code
  | incompatibleIdentification _ _ => some .incompatibleIdentification
  | degenerateSimplex _ _ _ => some .degenerateSimplex
  | vertexNotFound _ _ => some .vertexNotFound
  | conflictingMapping _ => some .conflictingMapping
  | duplicateVertex _ => some .duplicateVertex
  | emptyComplex => some .emptyComplex
  | simplexTooLarge _ _ => some .simplexTooLarge
  | unboundIdentifier _ => some .unboundIdentifier
  | notAValue _ => some .notAValue
  | notAnOperator _ => some .notAnOperator
  | notAFunction _ => some .notAFunction
  | notAVariable _ => some .notAVariable
  | typeMismatch _ _ _ => some .typeError
  | arityMismatch _ _ _ => some .arityError
  | misuse _ => some .usageError
  | integerOverflow _ _ => some .integerOverflow
  | uninitializedAddress _ => some .uninitializedAddress
  | tooManyRounds _ => some .nonTermination
  | callsTooDeep _ => some .nonTermination
  | invalidDocument _ => some .validationError
  | unknownForm => none
  | unending => none

def message : Fault → String
  | incompatibleIdentification operation detail =>
    "Incompatible vertex identifications in " ++ operation ++ "(): " ++ detail
  | degenerateSimplex operation simplex image =>
    operation ++ "(): simplex " ++ braced simplex ++ " collapsed to " ++ braced image ++
      " after vertex identifications"
  | vertexNotFound vertex operand =>
    "glue(): vertex '" ++ vertex ++ "' is not in the " ++ operand.name ++ " complex"
  | conflictingMapping detail => "glue(): " ++ detail
  | duplicateVertex vertex => "Duplicate vertex '" ++ vertex ++ "' in complex literal"
  | emptyComplex => "Cannot pick a vertex from an empty complex"
  | simplexTooLarge size limit =>
    "Cannot enumerate the faces of a simplex with " ++ size.text ++ " vertices (limit " ++
      limit.text ++ ")"
  | unboundIdentifier name => "Unbound identifier: " ++ name
  | notAValue name => "Identifier '" ++ name ++ "' is not a value"
  | notAnOperator name => "'" ++ name ++ "' is not an operator"
  | notAFunction name => "'" ++ name ++ "' is not a function"
  | notAVariable name => "Identifier '" ++ name ++ "' is not a complex variable"
  | typeMismatch expected actual context =>
    "Type error" ++ (if context = "" then "" else " (" ++ context ++ ")") ++ ": expected " ++
      expected ++ ", got " ++ actual
  | arityMismatch expected actual name =>
    "Arity error: " ++ name ++ " expects " ++ expected ++ " arguments, got " ++ actual.text
  | misuse message => message
  | integerOverflow context value =>
    "Integer overflow in " ++ context ++ ": " ++ value.text ++ " is not a safe integer"
  | uninitializedAddress address => "Address " ++ address.text ++ " not found in store"
  | tooManyRounds limit =>
    "While loop exceeded " ++ limit.text ++ " iterations, possible infinite loop"
  | callsTooDeep limit => "Function calls nested deeper than " ++ limit.text ++ " levels"
  | invalidDocument issues =>
    "Invalid program: " ++ String.intercalate "; " (issues.map fun i => i.1 ++ ": " ++ i.2)
  | unknownForm => "Unexpected value: [object Object]"
  | unending => ""

end Fault

end SimplexScript
