import SimplexScript.Proofs.Listing
import SimplexScript.Proofs.Partition.Merge

/-!
# Sequences of requests

A partition is only ever changed through its requests. After any sequence of
them its relation is the least equivalence that contains the pairs joined, its
nodes are the names mentioned, and what a request answers depends on nothing
else: searches relink the forest without moving a root.
-/

set_option autoImplicit false

namespace SimplexScript.Partition

inductive Request (α : Type) where
  | add (x : α)
  | find (x : α)
  | union (x y : α)
  | equivalent (x y : α)
  | classOf (x : α)
  | classes

variable {α : Type} [DecidableEq α]

namespace Request

def after (p : Partition α) : Request α → Partition α
  | .add x => p.add x
  | .find x => (p.find x).2
  | .union x y => (p.union x y).2
  | .equivalent x y => (p.equivalent x y).2
  | .classOf x => (p.classOf x).2
  | .classes => p.classes.2

def afterAll (rs : List (Request α)) : Partition α := rs.foldl after empty

omit [DecidableEq α] in
def mentions : Request α → List α
  | .add x => [x]
  | .find x => [x]
  | .union x y => [x, y]
  | _ => []

omit [DecidableEq α] in
def Reads (p : Partition α) : Request α → Prop
  | .add _ => False
  | .find x => x ∈ p.nodes
  | .union _ _ => False
  | _ => True

end Request

/-- The least equivalence in which the pairs joined are equivalent. -/
def JoinedBy (rs : List (Request α)) : α → α → Prop :=
  Relation.EqvGen fun a b => Request.union a b ∈ rs

section Answers

variable {p : Partition α}

theorem find_known (hp : p.Forest) {x : α} (hx : x ∈ p.nodes) : Relinked p (p.find x).2 := by
  have h := find_relinked hp x
  rwa [add_of_mem hx] at h

theorem findAll_known (hp : p.Forest) (xs : List α) (hxs : ∀ x ∈ xs, x ∈ p.nodes) :
    (findAll xs p).1 = xs.map p.root ∧ Relinked p (findAll xs p).2 := by
  induction xs generalizing p with
  | nil => exact ⟨rfl, .refl hp⟩
  | cons x xs ih =>
    have hx := find_known hp (hxs x (by simp))
    have hmem : ∀ y ∈ xs, y ∈ (p.find x).2.nodes := by
      intro y hy
      rw [hx.nodes]
      exact hxs y (by simp [hy])
    obtain ⟨hroots, hlinks⟩ := ih hx.forest hmem
    constructor
    · simp only [findAll, List.map_cons, hroots, find_fst hp]
      congr 1
      exact List.map_congr_left fun y _ => hx.root y
    · exact hx.trans hlinks

theorem equivalent_fst (hp : p.Forest) (x y : α) :
    (p.equivalent x y).1 = decide (p.root x = p.root y) := by
  by_cases hxy : x = y
  · simp [equivalent, hxy]
  by_cases hx : x ∈ p.nodes
  · by_cases hy : y ∈ p.nodes
    · have hfind := find_known hp hx
      simp [equivalent, hxy, contains_iff.2 hx, contains_iff.2 hy, find_fst hp,
        find_fst hfind.forest, hfind.root]
    · have hne : p.root x ≠ p.root y := (root_ne_of_not_mem hp hy (Ne.symm hxy)).symm
      simp [equivalent, hxy, mt contains_iff.1 hy, hne]
  · simp [equivalent, hxy, mt contains_iff.1 hx, root_ne_of_not_mem hp hx hxy]

theorem zip_roots (p : Partition α) :
    p.nodes.zip (p.nodes.map p.root) = p.nodes.map fun x => (x, p.root x) := by
  simpa using List.zip_map' (f := id) (g := p.root) (l := p.nodes)

theorem blocks_eq (p : Partition α) : p.blocks = (distinct (p.nodes.map p.root)).map fun r =>
    (r, p.nodes.filter fun y => decide (p.root y = r)) := by
  simp [blocks, gather, Table.groupBy, List.filter_map, Function.comp_def]

theorem existsUnique_block {x : α} (hx : x ∈ p.nodes) :
    ∃! e, e ∈ p.blocks ∧ x ∈ e.2 := by
  rw [blocks_eq]
  refine ⟨(p.root x, p.nodes.filter fun y => decide (p.root y = p.root x)), ⟨?_, ?_⟩, ?_⟩
  · exact List.mem_map.2 ⟨p.root x, (mem_distinct _ _).2 (List.mem_map_of_mem hx), rfl⟩
  · simpa using hx
  · rintro e ⟨he, hmem⟩
    obtain ⟨r, -, rfl⟩ := List.mem_map.1 he
    obtain rfl : p.root x = r := by simpa [hx] using hmem
    rfl

theorem classes_fst (hp : p.Forest) : p.classes.1 = p.blocks := by
  have hroots := (findAll_known hp p.nodes fun _ h => h).1
  simp only [classes, hroots, zip_roots, blocks]

theorem classes_relinked (hp : p.Forest) : Relinked p p.classes.2 :=
  (findAll_known hp p.nodes fun _ h => h).2

theorem classOf_fst (hp : p.Forest) (x : α) : (p.classOf x).1 = p.block x := by
  by_cases hx : x ∈ p.nodes
  · have hfind := find_known hp hx
    have hroots := (findAll_known hfind.forest p.nodes fun y hy => hfind.nodes ▸ hy).1
    have hmap : p.nodes.map (p.find x).2.root = p.nodes.map p.root :=
      List.map_congr_left fun y _ => hfind.root y
    rw [hmap] at hroots
    simp only [classOf, block, contains_iff.2 hx, if_true, hroots, zip_roots, find_fst hp,
      List.filterMap_map]
    rw [← List.filterMap_eq_filter]
    apply List.filterMap_congr
    intro y _
    simp [Option.guard]
  · simp [classOf, block, mt contains_iff.1 hx]

theorem mem_block_self (p : Partition α) (x : α) : x ∈ p.block x := by
  by_cases hx : x ∈ p.nodes
  · exact (mem_block hx).2 ⟨hx, rfl⟩
  · simp [block, mt contains_iff.1 hx]

theorem nodup_block (hp : p.Forest) (x : α) : (p.block x).Nodup := by
  unfold block
  split
  · exact hp.nodup.filter _
  · exact List.nodup_singleton x

/-- A node that becomes known is in no class but its own. -/
theorem block_add (hp : p.Forest) (v x : α) : (p.add v).block x = p.block x := by
  by_cases hv : v ∈ p.nodes
  · rw [add_of_mem hv]
  have hnodes : (p.add v).nodes = p.nodes ++ [v] := by
    rw [nodes_add, if_neg hv]
  by_cases hx : x ∈ p.nodes
  · have hne : p.root v ≠ p.root x := root_ne_of_not_mem hp hv fun he => hv (he ▸ hx)
    have hx' : x ∈ (p.add v).nodes := mem_nodes_add.2 (Or.inl hx)
    simp [block, contains_iff.2 hx, contains_iff.2 hx', hnodes, root_add hp, hne]
  by_cases hxv : x = v
  · subst hxv
    have hx' : x ∈ (p.add x).nodes := mem_nodes_add.2 (Or.inr rfl)
    have hothers : p.nodes.filter (fun y => decide (p.root y = p.root x)) = [] := by
      rw [List.filter_eq_nil_iff]
      intro y hy
      simpa using (root_ne_of_not_mem hp hx fun he => hx (he ▸ hy)).symm
    simp [block, mt contains_iff.1 hx, contains_iff.2 hx', hnodes, root_add hp, hothers]
  · have hx' : x ∉ (p.add v).nodes := fun h => (mem_nodes_add.1 h).elim hx hxv
    simp [block, mt contains_iff.1 hx, mt contains_iff.1 hx']

theorem filter_equivalent (hp : p.Forest) (x : α) :
    (p.nodes.filter fun y => (p.equivalent x y).1) =
      p.nodes.filter fun y => decide (p.root y = p.root x) := by
  apply List.filter_congr
  intro y _
  rw [equivalent_fst hp]
  exact decide_eq_decide.2 eq_comm

theorem classOf_relinked (hp : p.Forest) (x : α) : Relinked p (p.classOf x).2 := by
  by_cases hx : x ∈ p.nodes
  · have hfind := find_known hp hx
    simp only [classOf, contains_iff.2 hx, if_true]
    exact hfind.trans (findAll_known hfind.forest _ fun y hy => hfind.nodes ▸ hy).2
  · simp only [classOf, mt contains_iff.1 hx]
    exact .refl hp

theorem equivalent_relinked (hp : p.Forest) (x y : α) : Relinked p (p.equivalent x y).2 := by
  by_cases hxy : x = y
  · simpa [equivalent, hxy] using Relinked.refl hp
  by_cases hx : x ∈ p.nodes
  · by_cases hy : y ∈ p.nodes
    · have hfind := find_known hp hx
      simp only [equivalent, hxy, contains_iff.2 hx, contains_iff.2 hy, if_false, Bool.not_true,
        Bool.or_self, Bool.false_eq_true]
      exact hfind.trans (find_known hfind.forest (hfind.nodes ▸ hy))
    · simpa [equivalent, hxy, mt contains_iff.1 hy] using Relinked.refl hp
  · simpa [equivalent, hxy, mt contains_iff.1 hx] using Relinked.refl hp

theorem after_relinked (hp : p.Forest) {r : Request α} (hr : r.Reads p) :
    Relinked p (r.after p) := by
  cases r with
  | add x => exact absurd hr id
  | find x => exact find_known hp hr
  | union x y => exact absurd hr id
  | equivalent x y => exact equivalent_relinked hp x y
  | classOf x => exact classOf_relinked hp x
  | classes => exact classes_relinked hp

end Answers

/-- What is left of a sequence of requests. -/
structure Records (rs : List (Request α)) (p : Partition α) : Prop where
  forest : p.Forest
  nodes : p.nodes = distinct (rs.flatMap Request.mentions)
  root_iff : ∀ x y, p.root x = p.root y ↔ JoinedBy rs x y

namespace Records

variable {p q : Partition α} {rs : List (Request α)}

theorem relinked (h : Records rs p) (hq : Relinked p q) : Records rs q where
  forest := hq.forest
  nodes := hq.nodes.trans h.nodes
  root_iff x y := by rw [hq.root, hq.root, h.root_iff]

omit [DecidableEq α] in
theorem joinedBy_concat {r : Request α} (hr : ∀ a b, r ≠ .union a b) :
    JoinedBy (rs ++ [r]) = JoinedBy rs := by
  have hpair : ∀ a b, Request.union a b ∈ rs ++ [r] ↔ Request.union a b ∈ rs := by
    intro a b
    have hne : Request.union a b ≠ r := (hr a b).symm
    simp [hne]
  simp only [JoinedBy, hpair]

theorem add (h : Records rs p) {r : Request α} (hr : ∀ a b, r ≠ .union a b) {x : α}
    (hx : r.mentions = [x]) : Records (rs ++ [r]) (p.add x) where
  forest := add_forest h.forest x
  nodes := by
    rw [nodes_add, h.nodes, List.flatMap_append, List.flatMap_singleton, hx, distinct_concat]
  root_iff y z := by
    rw [root_add h.forest, root_add h.forest, h.root_iff, joinedBy_concat hr]

theorem ask (h : Records rs p) {r : Request α} (hr : ∀ a b, r ≠ .union a b)
    (hx : r.mentions = []) (hq : Relinked p q) : Records (rs ++ [r]) q where
  forest := hq.forest
  nodes := by
    rw [hq.nodes, h.nodes, List.flatMap_append, List.flatMap_singleton, hx, List.append_nil]
  root_iff y z := by
    rw [hq.root, hq.root, h.root_iff, joinedBy_concat hr]

theorem union (h : Records rs p) (x y : α) :
    Records (rs ++ [.union x y]) (p.union x y).2 where
  forest := (union_joined h.forest x y).1.forest
  nodes := by
    have hsplit : [x, y] = [x] ++ [y] := rfl
    rw [(union_joined h.forest x y).1.nodes, nodes_add, nodes_add, h.nodes, List.flatMap_append,
      List.flatMap_singleton, Request.mentions, hsplit, ← List.append_assoc, distinct_concat,
      distinct_concat]
  root_iff a b := by
    constructor
    · apply root_union_least h.forest (Relation.EqvGen.is_equivalence _)
      · intro c d hcd
        exact ((h.root_iff c d).1 hcd).mono fun _ _ hmem => List.mem_append_left _ hmem
      · exact .rel x y (by simp)
    · apply root_eq_of_eqvGen
      intro c d hcd
      rcases List.mem_append.1 hcd with hcd | hcd
      · exact root_union_mono h.forest x y ((h.root_iff c d).2 (.rel c d hcd))
      · obtain ⟨rfl, rfl⟩ : c = x ∧ d = y := by simpa using hcd
        exact root_union_pair h.forest c d

theorem step (h : Records rs p) (r : Request α) : Records (rs ++ [r]) (r.after p) := by
  cases r with
  | add x => exact h.add (by simp) rfl
  | find x => exact (h.add (by simp) rfl).relinked (find_relinked h.forest x)
  | union x y => exact h.union x y
  | equivalent x y => exact h.ask (by simp) rfl (equivalent_relinked h.forest x y)
  | classOf x => exact h.ask (by simp) rfl (classOf_relinked h.forest x)
  | classes => exact h.ask (by simp) rfl (classes_relinked h.forest)

theorem empty : Records [] (Partition.empty : Partition α) where
  forest := empty_forest
  nodes := rfl
  root_iff x y := by
    constructor
    · intro h
      rw [root_of_not_mem empty_forest (not_mem_empty x),
        root_of_not_mem empty_forest (not_mem_empty y)] at h
      exact h ▸ .refl x
    · exact root_eq_of_eqvGen fun a b hab => absurd hab List.not_mem_nil

theorem run {done : List (Request α)} (h : Records done p) (rs : List (Request α)) :
    Records (done ++ rs) (rs.foldl Request.after p) := by
  induction rs generalizing done p with
  | nil => simpa using h
  | cons r rs ih => simpa using ih (h.step r)

theorem afterAll (rs : List (Request α)) : Records rs (Request.afterAll rs) := empty.run rs

end Records

/-- After any sequence of requests: two names are equivalent exactly if the pairs joined make them
so, the nodes are the names mentioned in order of first mention, a search for a node gives a member
of its class and the same for all members, the classes are listed under their representatives in
the order of the nodes and share no node, and asking changes none of this. -/
theorem requests_generate_equivalence (rs : List (Request α)) :
    let p := Request.afterAll rs
    (∀ x y, (p.equivalent x y).1 = true ↔ x = y ∨ JoinedBy rs x y) ∧
    p.nodes = distinct (rs.flatMap Request.mentions) ∧
    (∀ x ∈ p.nodes, (p.find x).1 ∈ p.nodes ∧ JoinedBy rs x (p.find x).1 ∧
      ∀ y, JoinedBy rs x y → (p.find y).1 = (p.find x).1) ∧
    (Table.keys p.classes.1 = distinct (p.nodes.map fun x => (p.find x).1) ∧
      (∀ e ∈ p.classes.1, e.2 = p.nodes.filter fun y => (p.equivalent e.1 y).1) ∧
      ∀ x ∈ p.nodes, ∃! e, e ∈ p.classes.1 ∧ x ∈ e.2) ∧
    (∀ x, (p.classOf x).1 = if x ∈ p.nodes then p.nodes.filter fun y => (p.equivalent x y).1
      else [x]) ∧
    ∀ r : Request α, r.Reads p → (r.after p).nodes = p.nodes ∧
      (∀ x y, ((r.after p).equivalent x y).1 = (p.equivalent x y).1) ∧
      ∀ x, ((r.after p).find x).1 = (p.find x).1 := by
  intro p
  have h : Records rs p := .afterAll rs
  have hp := h.forest
  have hfind : ∀ x, (p.find x).1 = p.root x := find_fst hp
  have hequiv : ∀ x y, (p.equivalent x y).1 = decide (p.root x = p.root y) := equivalent_fst hp
  refine ⟨?_, h.nodes, ?_, ⟨?_, ?_, ?_⟩, ?_, ?_⟩
  · intro x y
    rw [hequiv, decide_eq_true_eq, h.root_iff]
    constructor
    · exact .inr
    · rintro (rfl | hxy)
      · exact .refl x
      · exact hxy
  · intro x hx
    rw [hfind]
    refine ⟨root_mem hp hx, (h.root_iff _ _).1 (root_root hp x).symm, ?_⟩
    intro y hy
    rw [hfind, (h.root_iff x y).2 hy]
  · simp only [classes_fst hp, blocks_eq, hfind, Table.keys, List.map_map]
    exact List.map_id _
  · intro e he
    rw [classes_fst hp, blocks_eq] at he
    obtain ⟨r, hr, rfl⟩ := List.mem_map.1 he
    obtain ⟨x, -, rfl⟩ := List.mem_map.1 ((mem_distinct _ _).1 hr)
    rw [filter_equivalent hp, root_root hp]
  · intro x hx
    rw [classes_fst hp]
    exact existsUnique_block hx
  · intro x
    rw [classOf_fst hp, block, filter_equivalent hp]
    by_cases hx : x ∈ p.nodes
    · rw [if_pos (contains_iff.2 hx), if_pos hx]
    · rw [if_neg (mt contains_iff.1 hx), if_neg hx]
  · intro r hr
    have hr := after_relinked hp hr
    refine ⟨hr.nodes, ?_, ?_⟩
    · intro x y
      rw [equivalent_fst hr.forest, hequiv, hr.root, hr.root]
    · intro x
      rw [find_fst hr.forest, hfind, hr.root]

/-- Ties between ranks, requests for unknown names and relinking in between. -/
theorem requests_generate_equivalence_tied :
    let rs := [Request.union "b" "a", .find "c", .classes, .union "a" "d", .equivalent "c" "e"]
    let p := Request.afterAll rs
    "d" ∈ p.nodes ∧ p.nodes = ["b", "a", "c", "d"] ∧ (p.find "d").1 = "b" ∧
      JoinedBy rs "d" (p.find "d").1 ∧ ¬ JoinedBy rs "c" "d" ∧
      p.classes.1 = [("b", ["b", "a", "d"]), ("c", ["c"])] ∧
      ((Request.classOf "d").after p).nodes = p.nodes := by
  intro rs p
  have hd : "d" ∈ p.nodes := by decide
  obtain ⟨hequiv, -, hfind, -, -, hreads⟩ := requests_generate_equivalence rs
  refine ⟨hd, by decide, by decide, (hfind "d" hd).2.1, ?_, by decide,
    (hreads (.classOf "d") trivial).1⟩
  intro hcd
  exact absurd ((hequiv "c" "d").2 (.inr hcd)) (by decide)

end SimplexScript.Partition
