import SimplexScript.Complex.Basic

/-!
# The algebra of complexes

`union` puts two complexes side by side, `glue` also identifies listed pairs
of vertices, `join` spans every simplex of one with every simplex of the
other, and `pick` takes one vertex with its whole class. Every result is
written in representatives; an identification that would shrink a simplex is
an error.
-/

set_option autoImplicit false

namespace SimplexScript

namespace Complex

abbrev Mapping := List (String × String)

def image (p : Partition String) (s : Simplex) : Simplex := distinct (s.map p.root)

def canonical (operation : String) (p : Partition String) (s : Simplex) : Except Fault Simplex :=
  let t := image p s
  if t.length = s.length then .ok t else .error (.degenerateSimplex operation s t)

def canonicalAll (operation : String) (p : Partition String) :
    List Simplex → Except Fault (List Simplex)
  | [] => .ok []
  | s :: rest => do
    let t ← canonical operation p s
    let ts ← canonicalAll operation p rest
    return t :: ts

/-- The complex of the images of some simplices, whose vertices all become known. -/
def quotient (operation : String) (p : Partition String) (simplices : List Simplex) :
    Except Fault Complex := do
  let images ← canonicalAll operation p simplices
  return ofSimplices images (p.addAll simplices.flatten)

def pairs {α : Type} : List α → List (α × α)
  | [] => []
  | x :: xs => xs.map (fun y => (x, y)) ++ pairs xs

/-- Two shared vertices that only one of the complexes identifies. -/
def disagreement (k l : Complex) : Option (String × String) :=
  let inSecond := l.vertices
  let common := k.vertices.filter fun v => decide (v ∈ inSecond)
  (pairs common).find? fun e => k.identifies e.1 e.2 != l.identifies e.1 e.2

def union (k l : Complex) : Except Fault Complex :=
  match disagreement k l with
  | some (v, w) => .error (.incompatibleIdentification "union"
      (v ++ " and " ++ w ++ " are equivalent in one complex but not the other"))
  | none => quotient "union" (k.partition.merge l.partition) (k.maximal ++ l.maximal)

def resolve (k : Complex) (operand : Operand) (v : String) : Except Fault String :=
  if k.partition.contains v && k.hasVertex (k.partition.root v) then .ok (k.partition.root v)
  else .error (.vertexNotFound v operand)

def resolveAll (k l : Complex) : Mapping → Except Fault Mapping
  | [] => .ok []
  | (a, b) :: rest => do
    let ra ← resolve k .first a
    let rb ← resolve l .second b
    let others ← resolveAll k l rest
    return (ra, rb) :: others

/-- Fails at the first pair of classes that makes the mapping many-valued or not one-to-one. -/
def checkClasses (forward backward : Table String String) : Mapping → Except Fault Unit
  | [] => .ok ()
  | (a, b) :: rest =>
    match (Table.get? forward a).filter fun t => !decide (t = b) with
    | some t => .error (.conflictingMapping
        ("class '" ++ a ++ "' is mapped to two different targets: " ++ t ++ " and " ++ b))
    | none =>
      match (Table.get? backward b).filter fun s => !decide (s = a) with
      | some s => .error (.conflictingMapping
          ("classes '" ++ s ++ "' and '" ++ a ++ "' are both mapped to '" ++ b ++ "'"))
      | none => checkClasses (Table.set forward a b) (Table.set backward b a) rest

def truthWord (b : Bool) : String := if b then "" else "not "

def checkConsistency (k l : Complex) (mapping : Mapping) : Except Fault Unit :=
  let differs := fun (e : (String × String) × (String × String)) =>
    k.identifies e.1.1 e.2.1 != l.identifies e.1.2 e.2.2
  match (pairs mapping).find? differs with
  | some ((a, b), (a', b')) => .error (.incompatibleIdentification "glue"
      (a ++ "~" ++ a' ++ " is " ++ truthWord (k.identifies a a') ++
        "true in the first complex but " ++ b ++ "~" ++ b' ++ " is " ++
        truthWord (l.identifies b b') ++ "true in the second"))
  | none => .ok ()

def joinPairs (p : Partition String) (mapping : Mapping) : Partition String :=
  mapping.foldl (fun p e => (p.union e.1 e.2).2) p

/-- Identifies each mapped pair. Any member of a class may name it. -/
def glue (k l : Complex) (mapping : Mapping) : Except Fault Complex := do
  let resolved ← resolveAll k l mapping
  checkClasses [] [] resolved
  checkConsistency k l mapping
  quotient "glue" (joinPairs (k.partition.merge l.partition) mapping) (k.maximal ++ l.maximal)

def spans (k l : Complex) : List Simplex :=
  k.maximal.flatMap fun s => l.maximal.map fun t => distinct (s ++ t)

def join (k l : Complex) : Except Fault Complex :=
  quotient "join" (k.partition.merge l.partition) (spans k l)

def indexIn (order : Table String Number) (v : String) : Number :=
  (Table.get? order v).getD (.infinite true)

def latest (order : Table String Number) (best : String) : List String → String
  | [] => best
  | v :: vs => latest order (if (indexIn order best).lt (indexIn order v) then v else best) vs

/-- The vertex of a complex that an order mentions last, the first listed if it mentions none. -/
def latestVertex? (c : Complex) (order : Table String Number) : Option String :=
  match c.vertices with
  | [] => none
  | v :: vs => some (latest order v vs)

def classPoint (p : Partition String) (r : String) : Complex :=
  ofSimplices [[r]] ((p.block r).foldl (fun q w => (q.union r w).2) (Partition.empty.add r))

/-- The latest vertex as a complex, and the complex in which that vertex is known. -/
def pickFrom (c : Complex) (order : Table String Number) : Except Fault (Complex × Complex) :=
  match latestVertex? c order with
  | none => .error .emptyComplex
  | some v =>
    let known := c.withNodes [v]
    .ok (classPoint known.partition (known.partition.root v), known)

def pick (c : Complex) (order : Table String Number) : Except Fault Complex :=
  (pickFrom c order).map Prod.fst

end Complex

end SimplexScript
