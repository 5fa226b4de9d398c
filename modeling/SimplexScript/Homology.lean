import SimplexScript.Complex.Basic

/-!
# Homology over two elements

The faces of a complex by degree, and the incidence of facets in faces, counted
modulo two. Rank is found by forward elimination, one column at a time: only
the parity of an entry counts, the first row says how many columns there are,
and a row that is shorter ends where it ends. A Betti number counts independent
cycles that bound nothing.
-/

set_option autoImplicit false

namespace SimplexScript.Homology

abbrev Row := List Bool

def addRow : Row → Row → Row
  | [], _ => []
  | row, [] => row
  | a :: row, b :: other => (a != b) :: addRow row other

def leads (row : Row) : Bool := row.head? == some true

def pivot? : List Row → Option (List Row × Row × List Row)
  | [] => none
  | row :: rows =>
    if leads row then some ([], row, rows)
    else (pivot? rows).map fun (before, pivot, rest) => (row :: before, pivot, rest)

def swapOut (before rest : List Row) : List Row :=
  match before with
  | [] => rest
  | row :: rows => rows ++ row :: rest

def clear (pivot row : Row) : Row := (if leads row then addRow row pivot else row).tail

def pivotCount : Nat → List Row → Nat
  | 0, _ => 0
  | cols + 1, rows =>
    match pivot? rows with
    | none => pivotCount cols (rows.map List.tail)
    | some (before, pivot, rest) => pivotCount cols ((swapOut before rest).map (clear pivot)) + 1

def parity (n : Nat) : Bool := n % 2 == 1

def rank (matrix : List (List Nat)) : Nat :=
  let rows := matrix.map fun row => row.map parity
  pivotCount (rows.head?.getD []).length rows

def ofDegree (k : Int) (faces : List Simplex) : List Simplex :=
  faces.filter fun s => decide ((s.length : Int) = k + 1)

def degreeFaces (c : Complex) (k : Int) : Except Fault (List Simplex) := do
  let faces ← c.simplices
  return ofDegree k faces

def skeleton (c : Complex) : Except Fault (Table Nat (List Simplex)) := do
  let faces ← c.simplices
  return Table.groupBy (fun s => s.length - 1) faces

/-- One column for each face, one row for each possible facet. -/
def incidence (faces lower : List Simplex) : List (List Nat) :=
  let columns := faces.map fun s => (Simplex.facets s).map Simplex.key
  lower.map fun t =>
    let key := Simplex.key t
    columns.map fun keys => keys.count key % 2

def boundaryMatrix (c : Complex) (k : Int) : Except Fault (List (List Nat)) := do
  let faces ← c.simplices
  return incidence (ofDegree k faces) (ofDegree (k - 1) faces)

/-- The degree that a number names. One that is no integer names a degree without faces. -/
def degreeOf (k : Number) : Int := k.toInt?.getD (-1)

/-- The rank of the boundary in degree `k`, zero outside the degrees of a complex. -/
def boundaryRank (faces : List Simplex) (dimension k : Int) : Nat :=
  if k ≤ 0 ∨ dimension < k then 0 else rank (incidence (ofDegree k faces) (ofDegree (k - 1) faces))

def betti (c : Complex) (k : Int) : Except Fault Int :=
  if k < 0 ∨ c.dimension < k then .ok 0
  else do
    let faces ← c.simplices
    return (ofDegree k faces).length - boundaryRank faces c.dimension k -
      boundaryRank faces c.dimension (k + 1)

/-- The Betti number at any number. Between two degrees there are no faces, and only the degree
above, if rounding reaches it, is left to subtract. -/
def bettiAt (c : Complex) (k : Number) : Except Fault Int :=
  match k.toInt? with
  | some z => betti c z
  | none =>
    if k.lt .zero || Number.lt (.ofInt c.dimension) k then .ok 0
    else do
      let faces ← c.simplices
      match (k.add (.ofInt 1)).toInt? with
      | some next => return -(boundaryRank faces c.dimension next : Int)
      | none => return 0

def bettiNumbers (c : Complex) : Except Fault (List (Nat × Int)) :=
  (List.range (c.dimension + 1).toNat).mapM fun (k : Nat) => do
    let b ← betti c (k : Int)
    return (k, b)

def eulerCharacteristic (c : Complex) : Except Fault Int := do
  let faces ← c.simplices
  return faces.foldl (fun chi s => if s.length % 2 = 1 then chi + 1 else chi - 1) (0 : Int)

end SimplexScript.Homology
