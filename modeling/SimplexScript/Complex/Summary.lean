import SimplexScript.Complex.Algebra
import SimplexScript.Json.Basic

/-!
# Summaries and graphs of complexes

A summary is what a run reports of a complex. Its classes are a record of
representatives with their members. A graph is the drawing of a complex: one
node for each class that has a vertex, and the edges and triangles between
representatives.
-/

set_option autoImplicit false

namespace SimplexScript

structure Summary where
  dimension : Number
  simplices : List (List String)
  vertices : List String
  classes : Record (List String)

namespace Summary

def ofComplex (c : Complex) : Summary where
  dimension := .ofInt c.dimension
  simplices := c.maximal
  vertices := c.vertices
  classes := Record.ofTable c.partition.blocks

def toJson (s : Summary) : Json :=
  .object [
    ("dimension", .number s.dimension),
    ("simplices", .array (s.simplices.map Json.texts)),
    ("vertices", Json.texts s.vertices),
    ("classes", .object (s.classes.entries.map fun e => (e.1, Json.texts e.2)))]

end Summary

structure Graph where
  nodes : List (String × List String)
  edges : List Simplex
  triangles : List Simplex

namespace Complex

def facesOfSize (n : Nat) (faces : List Simplex) : List Simplex :=
  distinct ((faces.filter fun face => decide (face.length = n)).map Text.sorted)

/-- The simplices up to the first whose image is too large to list its faces, that one included,
and the image if there is one. -/
def drawable (p : Partition String) : List Simplex → List Simplex × Option Simplex
  | [] => ([], none)
  | s :: rest =>
    if Simplex.maxVertices < (image p s).length then ([s], some (image p s))
    else
      let (seen, large) := drawable p rest
      (s :: seen, large)

/-- The graph, and the complex in which every vertex that was looked up is known. -/
def graph (c : Complex) : Except Fault Graph × Complex :=
  let (seen, large) := drawable c.partition c.maximal
  let known := c.withNodes seen.flatten
  match large with
  | some t => (.error (Simplex.tooLarge t), known)
  | none =>
    let p := known.partition
    let faces := c.maximal.flatMap fun s => Simplex.subfaces (image p s)
    let ids := distinct (c.vertices.map p.root)
    (.ok ⟨ids.map fun r => (r, p.block r), facesOfSize 2 faces, facesOfSize 3 faces⟩, known)

end Complex

end SimplexScript
