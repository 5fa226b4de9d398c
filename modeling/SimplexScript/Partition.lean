import SimplexScript.Table

/-!
# Partitions

A partition is a forest over named nodes: every node has a parent, a root is
its own parent and names its class. Classes are joined by rank, and every
search relinks the nodes on its way directly to the root.

`root`, `block`, `blocks`, `merge` and `replay` read a forest without
relinking it. `find`, `equivalent`, `classOf`, `classes`, `combine` and `copy`
give the same answers and also the relinked forest.
-/

set_option autoImplicit false

namespace SimplexScript

structure Link (α : Type) where
  parent : α
  rank : Nat

structure Partition (α : Type) where
  links : Table α (Link α)

namespace Partition

variable {α : Type}

def empty : Partition α := ⟨[]⟩

def nodes (p : Partition α) : List α := Table.keys p.links

def size (p : Partition α) : Nat := p.links.length

variable [DecidableEq α]

def contains (p : Partition α) (x : α) : Bool := Table.contains p.links x

def parent (p : Partition α) (x : α) : α :=
  match Table.get? p.links x with
  | some l => l.parent
  | none => x

def rank (p : Partition α) (x : α) : Nat :=
  match Table.get? p.links x with
  | some l => l.rank
  | none => 0

def add (p : Partition α) (x : α) : Partition α :=
  if p.contains x then p else ⟨p.links ++ [(x, ⟨x, 0⟩)]⟩

def addAll (p : Partition α) (xs : List α) : Partition α := xs.foldl add p

def climb (p : Partition α) : Nat → α → α
  | 0, x => x
  | n + 1, x => if p.parent x = x then x else climb p n (p.parent x)

/-- The representative of a class. No path is longer than the forest has nodes. -/
def root (p : Partition α) (x : α) : α := p.climb p.size x

def setParent (p : Partition α) (x y : α) : Partition α :=
  ⟨Table.set p.links x ⟨y, p.rank x⟩⟩

def setRank (p : Partition α) (x : α) (n : Nat) : Partition α :=
  ⟨Table.set p.links x ⟨p.parent x, n⟩⟩

def relink (r : α) : Nat → α → Partition α → Partition α
  | 0, _, p => p
  | n + 1, x, p => if x = r then p else relink r n (p.parent x) (p.setParent x r)

def find (p : Partition α) (x : α) : α × Partition α :=
  let q := p.add x
  let r := q.root x
  (r, relink r q.size x q)

/-- Joins two classes and gives the new representative. Of equal ranks the root of `x` wins. -/
def union (p : Partition α) (x y : α) : α × Partition α :=
  let (rx, p₁) := p.find x
  let (ry, p₂) := p₁.find y
  if rx = ry then (rx, p₂)
  else if p₂.rank rx < p₂.rank ry then (ry, p₂.setParent rx ry)
  else
    let q := p₂.setParent ry rx
    (rx, if p₂.rank rx = p₂.rank ry then q.setRank rx (p₂.rank rx + 1) else q)

/-- An unknown node is equivalent to itself alone, and is not added. -/
def equivalent (p : Partition α) (x y : α) : Bool × Partition α :=
  if x = y then (true, p)
  else if !p.contains x || !p.contains y then (false, p)
  else
    let (rx, p₁) := p.find x
    let (ry, p₂) := p₁.find y
    (decide (rx = ry), p₂)

def findAll : List α → Partition α → List α × Partition α
  | [], p => ([], p)
  | x :: xs, p =>
    let (r, p₁) := p.find x
    let (rs, p₂) := findAll xs p₁
    (r :: rs, p₂)

def gather (pairs : List (α × α)) : Table α (List α) :=
  (Table.groupBy Prod.snd pairs).map fun e => (e.1, e.2.map Prod.fst)

/-- Representatives with their classes, both in the order of the nodes. -/
def classes (p : Partition α) : Table α (List α) × Partition α :=
  let (rs, q) := findAll p.nodes p
  (gather (p.nodes.zip rs), q)

def classOf (p : Partition α) (x : α) : List α × Partition α :=
  if p.contains x then
    let (r, p₁) := p.find x
    let (rs, p₂) := findAll p.nodes p₁
    ((p.nodes.zip rs).filterMap fun e => if e.2 = r then some e.1 else none, p₂)
  else ([x], p)

def same (p : Partition α) (x y : α) : Bool :=
  decide (x = y) || (p.contains x && p.contains y && decide (p.root x = p.root y))

def blocks (p : Partition α) : Table α (List α) :=
  gather (p.nodes.map fun x => (x, p.root x))

def block (p : Partition α) (x : α) : List α :=
  if p.contains x then p.nodes.filter fun y => decide (p.root y = p.root x) else [x]

def absorb (p source : Partition α) : Partition α :=
  source.nodes.foldl (fun p x => (p.union (source.root x) x).2) p

def merge (p q : Partition α) : Partition α :=
  (((empty.addAll p.nodes).addAll q.nodes).absorb p).absorb q

def replay (p : Partition α) : Partition α := empty.absorb p

def absorbFound : List α → Partition α → Partition α → Partition α × Partition α
  | [], source, p => (p, source)
  | x :: xs, source, p =>
    let (r, source) := source.find x
    absorbFound xs source (p.union r x).2

/-- The merged partition, and both operands as its searches leave them. -/
def combine (p q : Partition α) : Partition α × Partition α × Partition α :=
  let (m, p') := absorbFound p.nodes p ((empty.addAll p.nodes).addAll q.nodes)
  let (m, q') := absorbFound q.nodes q m
  (m, p', q')

def copy (p : Partition α) : Partition α × Partition α := absorbFound p.nodes p empty

end Partition

end SimplexScript
