import SimplexScript.Fault
import SimplexScript.Partition
import SimplexScript.Text

/-!
# Simplices and complexes

A simplex lists its vertices in the order of first mention. Two simplices are
the same when one is a permutation of the other, which their keys decide. A
complex is a list of maximal simplices, no two of them the same, and a
partition that says which vertex names denote one point.

A draft is a complex whose partition need not know its vertices. All copies of
a draft carry its number and stand for one complex, so a vertex learned through
one of them is known to every other. The notes list, draft by draft, the names
learned since the draft was made, and `view` reads a copy with them.
-/

set_option autoImplicit false

namespace SimplexScript

abbrev Simplex := List String

namespace Simplex

/-- The vertices sorted and quoted, so that no two different vertex sets share a key. -/
def key (s : Simplex) : String := Text.quotedList (Text.sorted s)

def maxVertices : Nat := 20

def extend {α : Type} (faces : List (List α)) (v : α) : List (List α) :=
  faces ++ [v] :: faces.map fun face => face ++ [v]

/-- The non-empty subsequences: those with the last vertex follow all those without. -/
def subfaces {α : Type} (s : List α) : List (List α) := s.foldl extend []

def tooLarge (s : Simplex) : Fault :=
  .simplexTooLarge (.ofInt s.length) (.ofInt maxVertices)

def faces (s : Simplex) : Except Fault (List Simplex) :=
  if maxVertices < s.length then .error (tooLarge s) else .ok (subfaces s)

def facets (s : Simplex) : List Simplex := (List.range s.length).map fun i => s.eraseIdx i

def unranked : Number := .ofInt Number.maxSafe

def precedes (order : Table String Number) (v w : String) : Bool :=
  let i := (Table.get? order v).getD unranked
  let j := (Table.get? order w).getD unranked
  i.lt j || (!j.lt i && Text.le v w)

def ordered (s : Simplex) (order : Table String Number) : Simplex := sortBy (precedes order) s

end Simplex

structure Complex where
  maximal : List Simplex
  partition : Partition String
  draft : Option Nat

namespace Complex

/-- Keeps the first of the simplices that are the same. -/
def ofSimplices (simplices : List Simplex) (partition : Partition String) : Complex :=
  ⟨distinctBy Simplex.key simplices, partition, none⟩

def empty : Complex := ofSimplices [] .empty

def firstRepeated (seen : List String) : List String → Option String
  | [] => none
  | v :: vs => if v ∈ seen then some v else firstRepeated (v :: seen) vs

def ofVertices (vertices : List String) : Except Fault Complex :=
  match firstRepeated [] vertices with
  | some v => .error (.duplicateVertex v)
  | none =>
    .ok (ofSimplices (if vertices = [] then [] else [vertices]) (Partition.empty.addAll vertices))

def point (v : String) : Complex := ofSimplices [[v]] (Partition.empty.add v)

def raise (d : Int) (s : Simplex) : Int := max d ((s.length : Int) - 1)

def dimension (c : Complex) : Int := c.maximal.foldl raise (-1)

def vertices (c : Complex) : List String := distinct c.maximal.flatten

def vertexCount (c : Complex) : Nat := c.vertices.length

def simplices (c : Complex) : Except Fault (List Simplex) :=
  match c.maximal.find? fun s => decide (Simplex.maxVertices < s.length) with
  | some s => .error (Simplex.tooLarge s)
  | none => .ok (distinctBy Simplex.key (c.maximal.flatMap Simplex.subfaces))

def simplexCount (c : Complex) : Except Fault Nat := do
  let ss ← c.simplices
  return ss.length

def vertexOrder (c : Complex) : Table String Number :=
  c.vertices.zipIdx.map fun e => (e.1, .ofInt e.2)

def hasVertex (c : Complex) (v : String) : Bool := c.maximal.any fun s => decide (v ∈ s)

def identifies (c : Complex) (v w : String) : Bool := c.partition.same v w

def withNodes (c : Complex) (names : List String) : Complex :=
  { c with partition := c.partition.addAll names }

/-- The representative of a name, which becomes known to the complex. -/
def find (c : Complex) (v : String) : String × Complex := (c.partition.root v, c.withNodes [v])

def replay (c : Complex) : Complex := ofSimplices c.maximal c.partition.replay

def describe (c : Complex) : String :=
  let classes := c.partition.blocks.map fun e =>
    e.1 ++ ": [" ++ String.intercalate ", " e.2 ++ "]"
  "Complex(dimension=" ++ (Number.ofInt c.dimension).text ++ ", maximal_simplices=[" ++
    String.intercalate ", " (c.maximal.map braced) ++ "], classes=\x7b" ++
    String.intercalate ", " classes ++ "\x7d)"

end Complex

structure Notes where
  learned : List (List String)

namespace Notes

def empty : Notes := ⟨[]⟩

def draft (n : Notes) (c : Complex) : Complex × Notes :=
  ({ c with draft := some n.learned.length }, ⟨n.learned ++ [[]]⟩)

def namesOf (n : Notes) (c : Complex) : List String :=
  match c.draft with
  | some d => n.learned[d]?.getD []
  | none => []

/-- A complex as it is known now. -/
def view (n : Notes) (c : Complex) : Complex := c.withNodes (n.namesOf c)

/-- Notes a vertex of a complex, unless it is known already. -/
def learn (n : Notes) (c : Complex) (v : String) : Notes :=
  match c.draft with
  | some d =>
    if (n.view c).partition.contains v then n
    else ⟨n.learned.modify d fun names => names ++ [v]⟩
  | none => n

@[simp] theorem view_of_draft_eq_none (n : Notes) {c : Complex} (h : c.draft = none) :
    n.view c = c := by
  rw [view, namesOf, h]
  rfl

@[simp] theorem learn_of_draft_eq_none (n : Notes) {c : Complex} (h : c.draft = none)
    (v : String) : n.learn c v = n := by
  simp [learn, h]

end Notes

end SimplexScript
