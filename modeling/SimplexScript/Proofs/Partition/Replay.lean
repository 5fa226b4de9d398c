import SimplexScript.Proofs.Partition.Requests

/-!
# Merged and copied partitions

Merging and copying read a partition by searching it, so they see its nodes
and its representatives and may relink it, and nothing else of it changes. Of
a class that the other partition does not touch, every node is joined once to
its representative while it still stands alone with the least rank. The tie
goes to the representative, so the class keeps it.
-/

set_option autoImplicit false

namespace SimplexScript.Partition

variable {α : Type} [DecidableEq α] {p q : Partition α}

section Nodes

theorem nodes_addAll {xs : List α} (hxs : xs.Nodup) :
    (p.addAll xs).nodes = p.nodes ++ xs.filter fun x => decide (x ∉ p.nodes) := by
  induction xs generalizing p with
  | nil => simp [addAll]
  | cons x xs ih =>
    obtain ⟨hx, hxs⟩ := List.nodup_cons.1 hxs
    have hstep : (p.addAll (x :: xs)).nodes = ((p.add x).addAll xs).nodes := rfl
    have hrest : xs.filter (fun y => decide (y ∉ (p.add x).nodes)) =
        xs.filter fun y => decide (y ∉ p.nodes) := by
      apply List.filter_congr
      intro y hy
      have hne : y ≠ x := fun h => hx (h ▸ hy)
      simp [mem_nodes_add, hne]
    rw [hstep, ih hxs, hrest, nodes_add]
    by_cases hmem : x ∈ p.nodes
    · simp [hmem]
    · simp [hmem]

theorem nodes_unions_of_mem (hp : p.Forest) {pairs : List (α × α)}
    (h : ∀ e ∈ pairs, e.1 ∈ p.nodes ∧ e.2 ∈ p.nodes) : (p.unions pairs).nodes = p.nodes := by
  induction pairs generalizing p with
  | nil => rfl
  | cons e pairs ih =>
    obtain ⟨hfst, hsnd⟩ := h e (by simp)
    have hj := (union_joined hp e.1 e.2).1
    have hnodes : (p.union e.1 e.2).2.nodes = p.nodes := by
      rw [hj.nodes, add_of_mem hfst, add_of_mem hsnd]
    have hrest := ih hj.forest fun d hd => hnodes.symm ▸ h d (by simp [hd])
    exact hrest.trans hnodes

theorem mem_of_mem_rootPairs (hp : p.Forest) {e : α × α} (he : e ∈ p.rootPairs) :
    e.1 ∈ p.nodes ∧ e.2 ∈ p.nodes := by
  obtain ⟨x, hx, rfl⟩ := List.mem_map.1 he
  exact ⟨root_mem hp hx, hx⟩

theorem nodes_merge (hp : p.Forest) (hq : q.Forest) :
    (p.merge q).nodes = p.nodes ++ q.nodes.filter fun x => decide (x ∉ p.nodes) := by
  have hleft : ((empty : Partition α).addAll p.nodes).nodes = p.nodes := by
    rw [nodes_addAll hp.nodup]
    simp [empty, nodes, Table.keys]
  have hbase : (((empty : Partition α).addAll p.nodes).addAll q.nodes).nodes =
      p.nodes ++ q.nodes.filter fun x => decide (x ∉ p.nodes) := by
    rw [nodes_addAll hq.nodup, hleft]
  rw [merge_eq_unions, nodes_unions_of_mem (addAll_forest (addAll_forest empty_forest _) _), hbase]
  intro e he
  simp only [mem_nodes_addAll]
  rcases List.mem_append.1 he with he | he
  · obtain ⟨hfst, hsnd⟩ := mem_of_mem_rootPairs hp he
    exact ⟨Or.inl (Or.inr hfst), Or.inl (Or.inr hsnd)⟩
  · obtain ⟨hfst, hsnd⟩ := mem_of_mem_rootPairs hq he
    exact ⟨Or.inr hfst, Or.inr hsnd⟩

end Nodes

section Representatives

/-- Joins of nodes to their representatives are about the class of `x` or about other classes. -/
theorem fits_own (hp : p.Forest) (x : α) :
    ∀ e ∈ p.rootPairs, Fits p.root (fun z => p.root z = p.root x) e := by
  intro e he
  obtain ⟨y, -, rfl⟩ := List.mem_map.1 he
  by_cases hy : p.root y = p.root x
  · exact Or.inr (Or.inl ⟨hy, rfl⟩)
  · refine Or.inr (Or.inr ⟨?_, hy⟩)
    simpa only [root_root hp] using hy

/-- Where the other partition has only single nodes in the class of `x`, its joins leave that class
alone: one that meets it joins a node to itself. -/
theorem fits_other (hp : p.Forest) (hq : q.Forest) {x : α} (hx : x ∈ p.nodes)
    (h : ∀ y ∈ p.block x, y ∈ q.nodes → q.block y = [y]) :
    ∀ e ∈ q.rootPairs, Fits p.root (fun z => p.root z = p.root x) e := by
  have halone : ∀ y ∈ q.nodes, p.root y = p.root x → ∀ z ∈ q.nodes, q.root z = q.root y →
      z = y := by
    intro y hyq hyx z hz hzy
    have hyp : y ∈ p.nodes := by
      by_contra hy
      exact hy ((root_of_not_mem hp hy).symm.trans hyx ▸ root_mem hp hx)
    have hblock := h y ((mem_block hx).2 ⟨hyp, hyx⟩) hyq
    have hmem : z ∈ q.block y := (mem_block hyq).2 ⟨hz, hzy⟩
    rw [hblock] at hmem
    exact List.mem_singleton.1 hmem
  intro e he
  obtain ⟨y, hy, rfl⟩ := List.mem_map.1 he
  have hr := root_mem hq hy
  by_cases hyx : p.root y = p.root x
  · exact Or.inl (halone y hy hyx _ hr (root_root hq y))
  · refine Or.inr (Or.inr ⟨?_, hyx⟩)
    intro hroot
    have hyr : y = q.root y := halone _ hr hroot y hy (root_root hq y).symm
    exact hyx (hyr.symm ▸ hroot)

theorem root_merge_of_alone_left (hp : p.Forest) (hq : q.Forest) {x : α} (hx : x ∈ p.nodes)
    (h : ∀ y ∈ p.block x, y ∈ q.nodes → q.block y = [y]) : (p.merge q).root x = p.root x := by
  apply root_merge_of_fits _ _ (fits_own hp x) (fits_other hp hq hx h) rfl
  · exact List.mem_append_left _ (List.mem_map.2 ⟨x, hx, rfl⟩)
  · exact fun z hz => (root_root hp z).trans hz
  · exact fun z _ => root_root hp z

theorem root_merge_of_alone_right (hp : p.Forest) (hq : q.Forest) {x : α} (hx : x ∈ q.nodes)
    (h : ∀ y ∈ q.block x, y ∈ p.nodes → p.block y = [y]) : (p.merge q).root x = q.root x := by
  apply root_merge_of_fits _ _ (fits_other hq hp hx h) (fits_own hq x) rfl
  · exact List.mem_append_right _ (List.mem_map.2 ⟨x, hx, rfl⟩)
  · exact fun z hz => (root_root hq z).trans hz
  · exact fun z _ => root_root hq z

theorem replay_forest (p : Partition α) : p.replay.Forest := by
  rw [replay, absorb_eq_unions]
  exact unions_forest empty_forest _

theorem mem_nodes_replay (hp : p.Forest) {x : α} : x ∈ p.replay.nodes ↔ x ∈ p.nodes := by
  rw [replay, absorb_eq_unions, mem_nodes_unions empty_forest]
  constructor
  · rintro (h | ⟨e, he, h⟩)
    · exact absurd h (not_mem_empty x)
    · obtain ⟨hfst, hsnd⟩ := mem_of_mem_rootPairs hp he
      rcases h with rfl | rfl
      · exact hfst
      · exact hsnd
  · exact fun hx => Or.inr ⟨_, List.mem_map.2 ⟨x, hx, rfl⟩, Or.inr rfl⟩

theorem root_replay (hp : p.Forest) (x : α) : p.replay.root x = p.root x := by
  by_cases hx : x ∈ p.nodes
  · have hstart : Settling p.root (fun _ => True) (empty : Partition α) :=
      settling_empty p.root _ [] []
    rw [replay, absorb_eq_unions]
    apply hstart.unions (fun _ _ => trivial) (fun z _ => root_root hp z) empty_forest _ trivial
    · exact Or.inl (List.mem_map.2 ⟨x, hx, rfl⟩)
    · intro e he
      obtain ⟨y, -, rfl⟩ := List.mem_map.1 he
      exact Or.inr (Or.inl ⟨trivial, rfl⟩)
  · have hx' : x ∉ p.replay.nodes := mt (mem_nodes_replay hp).1 hx
    rw [root_of_not_mem (replay_forest p) hx', root_of_not_mem hp hx]

end Representatives

section Searches

theorem absorbFound_eq {source : Partition α} (h : source.Forest) (xs : List α)
    (hxs : ∀ x ∈ xs, x ∈ source.nodes) (p : Partition α) :
    (absorbFound xs source p).1 = p.unions (xs.map fun x => (source.root x, x)) ∧
      Relinked source (absorbFound xs source p).2 := by
  induction xs generalizing source p with
  | nil => exact ⟨rfl, .refl h⟩
  | cons x xs ih =>
    have hfind := find_known h (hxs x (by simp))
    obtain ⟨hjoins, hlinks⟩ := ih hfind.forest
      (fun y hy => hfind.nodes.symm ▸ hxs y (by simp [hy])) (p.union (source.find x).1 x).2
    refine ⟨?_, hfind.trans hlinks⟩
    have hroot : ∀ y, (source.find x).2.root y = source.root y := hfind.root
    rw [absorbFound, hjoins, find_fst h]
    simp only [hroot]
    rfl

theorem absorbFound_nodes {source : Partition α} (h : source.Forest) (p : Partition α) :
    (absorbFound source.nodes source p).1 = p.absorb source ∧
      Relinked source (absorbFound source.nodes source p).2 := by
  rw [absorb_eq_unions]
  exact absorbFound_eq h source.nodes (fun _ hx => hx) p

theorem combine_fst (hp : p.Forest) (hq : q.Forest) : (p.combine q).1 = p.merge q := by
  simp only [combine, merge, (absorbFound_nodes hp _).1, (absorbFound_nodes hq _).1]

theorem combine_relinked (hp : p.Forest) (hq : q.Forest) :
    Relinked p (p.combine q).2.1 ∧ Relinked q (p.combine q).2.2 :=
  ⟨(absorbFound_nodes hp _).2, (absorbFound_nodes hq _).2⟩

theorem copy_fst (hp : p.Forest) : p.copy.1 = p.replay := (absorbFound_nodes hp empty).1

theorem copy_relinked (hp : p.Forest) : Relinked p p.copy.2 := (absorbFound_nodes hp empty).2

end Searches

/-- Two partitions have one relation and the same representatives. -/
structure Agrees (p q : Partition α) : Prop where
  equivalent : ∀ x y, (q.equivalent x y).1 = (p.equivalent x y).1
  find : ∀ x, (q.find x).1 = (p.find x).1

theorem agrees_of_root (hp : p.Forest) (hq : q.Forest) (h : ∀ x, q.root x = p.root x) :
    Agrees p q where
  equivalent x y := by rw [equivalent_fst hp, equivalent_fst hq, h, h]
  find x := by rw [find_fst hp, find_fst hq, h]

theorem Relinked.agrees (hp : p.Forest) (h : Relinked p q) : Agrees p q :=
  agrees_of_root hp h.forest h.root

theorem equivalent_merge (hp : p.Forest) (hq : q.Forest) (x y : α) :
    ((p.merge q).equivalent x y).1 = true ↔ Relation.EqvGen
      (fun a b => (p.equivalent a b).1 = true ∨ (q.equivalent a b).1 = true) x y := by
  simp only [equivalent_fst (merge_forest p q), equivalent_fst hp, equivalent_fst hq,
    decide_eq_true_eq]
  constructor
  · apply root_merge_least hp hq (Relation.EqvGen.is_equivalence _)
    · exact fun a b hab => .rel a b (Or.inl hab)
    · exact fun a b hab => .rel a b (Or.inr hab)
  · apply root_eq_of_eqvGen
    rintro a b (hab | hab)
    · exact root_merge_of_left hp q hab
    · exact root_merge_of_right p hq hab

/-- Any two partitions are merged to the least partition that respects both: the nodes of the first
come first, the relation is the least equivalence that contains both relations, in whichever order
they are merged, and a class of one that meets only single nodes of the other keeps its
representative. A copy has the nodes, the relation and the representatives of what is copied. The
searches in the operands change none of theirs. -/
theorem combine_and_copy_replay (rs ts : List (Request α)) :
    let u := Request.afterAll rs
    let w := Request.afterAll ts
    let m := (u.combine w).1
    m.nodes = u.nodes ++ w.nodes.filter (fun x => decide (x ∉ u.nodes)) ∧
    (∀ x y, (m.equivalent x y).1 = true ↔ Relation.EqvGen
      (fun a b => (u.equivalent a b).1 = true ∨ (w.equivalent a b).1 = true) x y) ∧
    (∀ x y, (m.equivalent x y).1 = ((w.combine u).1.equivalent x y).1) ∧
    (∀ x ∈ u.nodes, (∀ y ∈ (u.classOf x).1, y ∈ w.nodes → (w.classOf y).1 = [y]) →
      (m.find x).1 = (u.find x).1) ∧
    (∀ x ∈ w.nodes, (∀ y ∈ (w.classOf x).1, y ∈ u.nodes → (u.classOf y).1 = [y]) →
      (m.find x).1 = (w.find x).1) ∧
    (u.copy.1.nodes.Perm u.nodes ∧ Agrees u u.copy.1) ∧
    ((u.combine w).2.1.nodes = u.nodes ∧ Agrees u (u.combine w).2.1) ∧
    ((u.combine w).2.2.nodes = w.nodes ∧ Agrees w (u.combine w).2.2) ∧
    u.copy.2.nodes = u.nodes ∧ Agrees u u.copy.2 := by
  intro u w m
  have hu : u.Forest := (Records.afterAll rs).forest
  have hw : w.Forest := (Records.afterAll ts).forest
  have hm : m = u.merge w := combine_fst hu hw
  have hrelation := equivalent_merge hu hw
  obtain ⟨hlinksu, hlinksw⟩ := combine_relinked hu hw
  refine ⟨hm ▸ nodes_merge hu hw, fun x y => hm ▸ hrelation x y, ?_, ?_, ?_, ⟨?_, ?_⟩,
    ⟨hlinksu.nodes, hlinksu.agrees hu⟩, ⟨hlinksw.nodes, hlinksw.agrees hw⟩,
    (copy_relinked hu).nodes, (copy_relinked hu).agrees hu⟩
  · intro x y
    rw [hm, combine_fst hw hu, Bool.eq_iff_iff, hrelation, equivalent_merge hw hu]
    simp only [or_comm]
  · intro x hx halone
    simp only [classOf_fst hu, classOf_fst hw] at halone
    rw [hm, find_fst (merge_forest u w), find_fst hu]
    exact root_merge_of_alone_left hu hw hx halone
  · intro x hx halone
    simp only [classOf_fst hu, classOf_fst hw] at halone
    rw [hm, find_fst (merge_forest u w), find_fst hw]
    exact root_merge_of_alone_right hu hw hx halone
  · rw [copy_fst hu, List.perm_ext_iff_of_nodup (replay_forest u).nodup hu.nodup]
    exact fun x => mem_nodes_replay hu
  · rw [copy_fst hu]
    exact agrees_of_root hu (replay_forest u) (root_replay hu)

/-- Each partition has a class that the other meets in a single node, and whose representative is
not its first node in the merged partition. -/
theorem combine_and_copy_replay_shared :
    let u := Request.afterAll [Request.union "b" "a", .union "a" "d", .add "e"]
    let w := Request.afterAll [Request.add "d", .union "f" "e", .find "g"]
    let m := (u.combine w).1
    ("a" ∈ u.nodes ∧ ∀ y ∈ (u.classOf "a").1, y ∈ w.nodes → (w.classOf y).1 = [y]) ∧
      ("e" ∈ w.nodes ∧ ∀ y ∈ (w.classOf "e").1, y ∈ u.nodes → (u.classOf y).1 = [y]) ∧
      m.nodes = ["b", "a", "d", "e", "f", "g"] ∧ (m.find "a").1 = "b" ∧ (m.find "e").1 = "f" ∧
      Agrees u u.copy.1 := by
  intro u w m
  have hu : "a" ∈ u.nodes ∧ ∀ y ∈ (u.classOf "a").1, y ∈ w.nodes → (w.classOf y).1 = [y] := by
    decide
  have hw : "e" ∈ w.nodes ∧ ∀ y ∈ (w.classOf "e").1, y ∈ u.nodes → (u.classOf y).1 = [y] := by
    decide
  obtain ⟨hnodes, -, -, hleft, hright, ⟨-, hcopy⟩, -⟩ := combine_and_copy_replay
    [Request.union "b" "a", .union "a" "d", .add "e"] [Request.add "d", .union "f" "e", .find "g"]
  exact ⟨hu, hw, hnodes, hleft "a" hu.1 hu.2, hright "e" hw.1 hw.2, hcopy⟩

end SimplexScript.Partition
