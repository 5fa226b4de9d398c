import SimplexScript.Proofs.Partition.Merge
import SimplexScript.Proofs.Partition.Requests

/-!
# Joins under other names

A join reads its two names only through their roots, and of the forest only
roots and ranks. So forests that differ in nothing but their paths stay so
when classes are joined in both, under whatever names of the same classes, and
they list the same classes.
-/

set_option autoImplicit false

namespace SimplexScript.Partition

variable {α : Type} [DecidableEq α] {p q : Partition α}

structure Akin (p : Partition α) (x y : α) : Prop where
  left : x ∈ p.nodes
  right : y ∈ p.nodes
  root : p.root x = p.root y

theorem Akin.union (hp : p.Forest) {a b : α} (h : p.Akin a b) (x y : α) :
    (p.union x y).2.Akin a b :=
  ⟨(mem_nodes_union hp).2 (Or.inl h.left), (mem_nodes_union hp).2 (Or.inl h.right),
    root_union_mono hp x y h.root⟩

namespace Relinked

theorem add (hp : p.Forest) (h : Relinked p q) (x : α) : Relinked (p.add x) (q.add x) where
  forest := add_forest h.forest x
  nodes := by rw [nodes_add, nodes_add, h.nodes]
  rank z := by rw [rank_add, rank_add, h.rank]
  root z := by rw [root_add hp, root_add h.forest, h.root]

theorem addAll (hp : p.Forest) (h : Relinked p q) (xs : List α) :
    Relinked (p.addAll xs) (q.addAll xs) := by
  induction xs generalizing p q with
  | nil => exact h
  | cons x xs ih => exact ih (add_forest hp x) (h.add hp x)

theorem union (hp : p.Forest) (h : Relinked p q) {x x' y y' : α} (hx : p.Akin x x')
    (hy : p.Akin y y') : Relinked (p.union x y).2 (q.union x' y').2 := by
  obtain ⟨hjoined, hwin⟩ := union_joined hp x y
  obtain ⟨hjoined', hwin'⟩ := union_joined h.forest x' y'
  have hwinners : (q.union x' y').1 = (p.union x y).1 := by
    rw [hwin, hwin', h.root, h.root, h.rank, h.rank, hx.root, hy.root]
  have hmemx : x' ∈ q.nodes := h.nodes.symm ▸ hx.right
  have hmemy : y' ∈ q.nodes := h.nodes.symm ▸ hy.right
  refine ⟨hjoined'.forest, ?_, ?_, ?_⟩
  · rw [hjoined.nodes, hjoined'.nodes, add_of_mem hx.left, add_of_mem hy.left, add_of_mem hmemx,
      add_of_mem hmemy, h.nodes]
  · intro z
    rw [rank_union_eq hp, rank_union_eq h.forest, h.root, h.root, h.rank, h.rank, h.rank, hx.root,
      hy.root]
  · intro z
    rw [hjoined.root, hjoined'.root, hwinners, h.root, h.root, h.root, hx.root, hy.root]

/-- The same for a list of joins: classes that were one stay one, so the names of a later pair are
still names of the same classes. -/
theorem unions {pairs pairs' : List (α × α)} (hp : p.Forest) (h : Relinked p q)
    (hpairs : List.Forall₂ (fun e d => p.Akin e.1 d.1 ∧ p.Akin e.2 d.2) pairs pairs') :
    Relinked (p.unions pairs) (q.unions pairs') := by
  induction pairs generalizing p q pairs' with
  | nil =>
    cases hpairs
    exact h
  | cons e pairs ih =>
    cases hpairs with
    | cons he hrest =>
      apply ih (union_joined hp e.1 e.2).1.forest (h.union hp he.1 he.2)
      exact hrest.imp fun c d hcd => ⟨hcd.1.union hp e.1 e.2, hcd.2.union hp e.1 e.2⟩

theorem classes_eq (hp : p.Forest) (h : Relinked p q) : q.classes.1 = p.classes.1 := by
  rw [classes_fst hp, classes_fst h.forest, blocks_eq, blocks_eq, h.nodes, funext h.root]

end Relinked

end SimplexScript.Partition
