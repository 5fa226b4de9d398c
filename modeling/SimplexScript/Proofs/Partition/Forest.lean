import Mathlib.Data.List.Nodup
import SimplexScript.Partition
import SimplexScript.Proofs.Table

/-!
# Forests

Parents are nodes and ranks grow towards the root. Such a forest has no
cycles, and a path visits fewer nodes than there are, so every search ends at
a root. `Leads` is that search without a bound on its length; two forests with
the same parents, or with paths cut short, have the same roots.
-/

set_option autoImplicit false

namespace SimplexScript.Partition

variable {α : Type} [DecidableEq α]

structure Forest (p : Partition α) : Prop where
  nodup : p.nodes.Nodup
  parent_mem : ∀ x ∈ p.nodes, p.parent x ∈ p.nodes
  rank_lt : ∀ x ∈ p.nodes, p.parent x ≠ x → p.rank x < p.rank (p.parent x)

/-- Following parents from `x` ends at the root `r`. -/
inductive Leads (p : Partition α) : α → α → Prop
  | root {r : α} (h : p.parent r = r) : Leads p r r
  | step {x r : α} (hx : p.parent x ≠ x) (h : Leads p (p.parent x) r) : Leads p x r

theorem contains_iff {p : Partition α} {x : α} : p.contains x = true ↔ x ∈ p.nodes :=
  Table.contains_iff p.links x

theorem mem_block {p : Partition α} {x y : α} (hx : x ∈ p.nodes) :
    y ∈ p.block x ↔ y ∈ p.nodes ∧ p.root y = p.root x := by
  rw [block, if_pos (contains_iff.2 hx)]
  simp

theorem get?_of_not_mem {p : Partition α} {x : α} (h : x ∉ p.nodes) :
    Table.get? p.links x = none := by
  cases hg : Table.get? p.links x with
  | none => rfl
  | some l => exact absurd (Table.mem_keys (Table.mem_of_get? hg)) h

theorem parent_of_not_mem {p : Partition α} {x : α} (h : x ∉ p.nodes) : p.parent x = x := by
  simp [parent, get?_of_not_mem h]

theorem rank_of_not_mem {p : Partition α} {x : α} (h : x ∉ p.nodes) : p.rank x = 0 := by
  simp [rank, get?_of_not_mem h]

theorem mem_of_parent_ne {p : Partition α} {x : α} (h : p.parent x ≠ x) : x ∈ p.nodes := by
  by_contra hx
  exact h (parent_of_not_mem hx)

namespace Leads

variable {p : Partition α} {x r : α}

theorem fixed (h : p.Leads x r) : p.parent r = r := by
  induction h with
  | root h => exact h
  | step _ _ ih => exact ih

theorem unique (h : p.Leads x r) {s : α} (hs : p.Leads x s) : r = s := by
  induction h with
  | root hr =>
    cases hs with
    | root _ => rfl
    | step hx _ => exact absurd hr hx
  | step hx _ ih =>
    cases hs with
    | root hr => exact absurd hr hx
    | step _ hs => exact ih hs

theorem mem (hp : p.Forest) (h : p.Leads x r) (hx : x ∈ p.nodes) : r ∈ p.nodes := by
  induction h with
  | root _ => exact hx
  | step _ _ ih => exact ih (hp.parent_mem _ hx)

theorem rank_le (hp : p.Forest) (h : p.Leads x r) : p.rank x ≤ p.rank r := by
  induction h with
  | root _ => exact Nat.le_refl _
  | step hx _ ih => exact Nat.le_trans (Nat.le_of_lt (hp.rank_lt _ (mem_of_parent_ne hx) hx)) ih

theorem rank_lt (hp : p.Forest) (h : p.Leads x r) (hne : x ≠ r) : p.rank x < p.rank r := by
  cases h with
  | root _ => exact absurd rfl hne
  | step hx h => exact Nat.lt_of_lt_of_le (hp.rank_lt _ (mem_of_parent_ne hx) hx) (h.rank_le hp)

end Leads

section Climb

variable {p : Partition α}

/-- The nodes above a node in rank, which bound the way to its root. -/
def above (p : Partition α) (x : α) : List α := p.nodes.filter fun y => decide (p.rank x < p.rank y)

theorem above_parent_lt (hp : p.Forest) {x : α} (hx : p.parent x ≠ x) :
    (p.above (p.parent x)).length < (p.above x).length := by
  have hmem := mem_of_parent_ne hx
  have hlt := hp.rank_lt x hmem hx
  have hsub : p.above (p.parent x) =
      (p.above x).filter fun y => decide (p.rank (p.parent x) < p.rank y) := by
    simp only [above, List.filter_filter]
    apply List.filter_congr
    intro y _
    by_cases h : p.rank (p.parent x) < p.rank y
    · simp [h, Nat.lt_trans hlt h]
    · simp [h]
  rw [hsub, List.length_filter_lt_length_iff_exists]
  refine ⟨p.parent x, ?_, by simp⟩
  simp [above, hp.parent_mem x hmem, hlt]

theorem leads_climb (hp : p.Forest) (n : Nat) (x : α) (h : (p.above x).length ≤ n) :
    p.Leads x (p.climb n x) := by
  induction n generalizing x with
  | zero =>
    by_cases hx : p.parent x = x
    · exact .root hx
    · have := above_parent_lt hp hx
      omega
  | succ n ih =>
    by_cases hx : p.parent x = x
    · simp only [climb, hx, if_true]
      exact .root hx
    · simp only [climb, hx, if_false]
      have := above_parent_lt hp hx
      exact .step hx (ih _ (by omega))

theorem leads_root (hp : p.Forest) (x : α) : p.Leads x (p.root x) := by
  apply leads_climb hp
  have h := List.length_filter_le (fun y => decide (p.rank x < p.rank y)) p.nodes
  simpa [above, size, nodes, Table.keys] using h

theorem root_eq (hp : p.Forest) {x r : α} (h : p.Leads x r) : p.root x = r :=
  (leads_root hp x).unique h

theorem parent_root (hp : p.Forest) (x : α) : p.parent (p.root x) = p.root x :=
  (leads_root hp x).fixed

theorem root_of_parent_eq (hp : p.Forest) {x : α} (h : p.parent x = x) : p.root x = x :=
  root_eq hp (.root h)

theorem root_root (hp : p.Forest) (x : α) : p.root (p.root x) = p.root x :=
  root_of_parent_eq hp (parent_root hp x)

theorem root_of_not_mem (hp : p.Forest) {x : α} (h : x ∉ p.nodes) : p.root x = x :=
  root_of_parent_eq hp (parent_of_not_mem h)

theorem root_parent (hp : p.Forest) (x : α) : p.root (p.parent x) = p.root x := by
  by_cases hx : p.parent x = x
  · rw [hx]
  · exact (root_eq hp (.step hx (leads_root hp (p.parent x)))).symm

theorem root_mem (hp : p.Forest) {x : α} (hx : x ∈ p.nodes) : p.root x ∈ p.nodes :=
  (leads_root hp x).mem hp hx

end Climb

section Update

variable {p q : Partition α}

theorem nodes_setParent {x : α} (hx : x ∈ p.nodes) (y : α) : (p.setParent x y).nodes = p.nodes := by
  simp only [nodes, setParent, Table.keys_set]
  rw [if_pos ((Table.contains_iff p.links x).2 hx)]

theorem parent_setParent (x y z : α) :
    (p.setParent x y).parent z = if x = z then y else p.parent z := by
  simp only [parent, setParent, Table.get?_set]
  by_cases h : x = z <;> simp [h]

theorem rank_setParent (x y z : α) : (p.setParent x y).rank z = p.rank z := by
  by_cases h : x = z
  · subst h
    simp [rank, setParent, Table.get?_set]
  · simp [rank, setParent, Table.get?_set, h]

theorem nodes_setRank {x : α} (hx : x ∈ p.nodes) (n : Nat) : (p.setRank x n).nodes = p.nodes := by
  simp only [nodes, setRank, Table.keys_set]
  rw [if_pos ((Table.contains_iff p.links x).2 hx)]

theorem parent_setRank (x : α) (n : Nat) (z : α) : (p.setRank x n).parent z = p.parent z := by
  by_cases h : x = z
  · subst h
    simp [parent, setRank, Table.get?_set]
  · simp [parent, setRank, Table.get?_set, h]

theorem rank_setRank (x : α) (n : Nat) (z : α) :
    (p.setRank x n).rank z = if x = z then n else p.rank z := by
  simp only [rank, setRank, Table.get?_set]
  by_cases h : x = z <;> simp [h]

/-- The same nodes, ranks and roots over a forest whose paths may differ. -/
structure Relinked (p q : Partition α) : Prop where
  forest : q.Forest
  nodes : q.nodes = p.nodes
  rank : ∀ z, q.rank z = p.rank z
  root : ∀ z, q.root z = p.root z

theorem Relinked.refl (hp : p.Forest) : Relinked p p := ⟨hp, rfl, fun _ => rfl, fun _ => rfl⟩

theorem Relinked.trans {r : Partition α} (h : Relinked p q) (h' : Relinked q r) : Relinked p r :=
  ⟨h'.forest, h'.nodes.trans h.nodes, fun z => (h'.rank z).trans (h.rank z),
    fun z => (h'.root z).trans (h.root z)⟩

theorem setParent_forest (hp : p.Forest) {x : α} (hne : x ≠ p.root x) (hx : x ∈ p.nodes) :
    (p.setParent x (p.root x)).Forest := by
  refine ⟨?_, ?_, ?_⟩
  · rw [nodes_setParent hx]
    exact hp.nodup
  · intro z hz
    rw [nodes_setParent hx] at hz ⊢
    rw [parent_setParent]
    split
    · exact root_mem hp hx
    · exact hp.parent_mem z hz
  · intro z hz hne'
    rw [nodes_setParent hx] at hz
    simp only [rank_setParent, parent_setParent] at hne' ⊢
    split at hne'
    next h =>
      subst h
      rw [if_pos rfl]
      exact (leads_root hp x).rank_lt hp hne
    next h =>
      rw [if_neg h]
      exact hp.rank_lt z hz hne'

theorem leads_setParent (hp : p.Forest) {x z s : α} (hne : x ≠ p.root x) (h : p.Leads z s) :
    (p.setParent x (p.root x)).Leads z s := by
  induction h with
  | @root s hs =>
    have hxs : x ≠ s := fun h => hne (h ▸ (root_of_parent_eq hp hs).symm)
    exact .root (by rw [parent_setParent, if_neg hxs, hs])
  | @step z s hz h ih =>
    by_cases hxz : x = z
    · subst hxz
      have hs : p.root x = s := root_eq hp (.step hz h)
      have hparent : (p.setParent x (p.root x)).parent x = s := by
        rw [parent_setParent, if_pos rfl, hs]
      have hxs : x ≠ s := hs ▸ hne
      have hfix : (p.setParent x (p.root x)).parent s = s := by
        rw [parent_setParent, if_neg hxs, h.fixed]
      refine .step ?_ ?_
      · rw [hparent]
        exact hxs.symm
      · rw [hparent]
        exact .root hfix
    · have hparent : (p.setParent x (p.root x)).parent z = p.parent z := by
        rw [parent_setParent, if_neg hxz]
      refine .step ?_ ?_
      · rw [hparent]
        exact hz
      · rw [hparent]
        exact ih

theorem setParent_relinked (hp : p.Forest) {x : α} (hne : x ≠ p.root x) :
    Relinked p (p.setParent x (p.root x)) := by
  have hpx : p.parent x ≠ x := fun h => hne (root_of_parent_eq hp h).symm
  have hx := mem_of_parent_ne hpx
  have hq := setParent_forest hp hne hx
  exact ⟨hq, nodes_setParent hx _, rank_setParent x _,
    fun z => root_eq hq (leads_setParent hp hne (leads_root hp z))⟩

theorem relink_relinked (n : Nat) (hp : p.Forest) {x r : α} (hr : p.root x = r) :
    Relinked p (relink r n x p) := by
  induction n generalizing p x with
  | zero => exact .refl hp
  | succ n ih =>
    by_cases hx : x = r
    · simp only [relink, hx, if_true]
      exact .refl hp
    · simp only [relink, hx, if_false]
      have hlink : Relinked p (p.setParent x r) := by
        rw [← hr]
        exact setParent_relinked hp (hr.symm ▸ hx)
      exact hlink.trans (ih hlink.forest (by rw [hlink.root, root_parent hp, hr]))

end Update

end SimplexScript.Partition
