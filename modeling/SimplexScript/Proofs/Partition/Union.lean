import SimplexScript.Proofs.Partition.Forest

/-!
# Joining classes

What adding, searching and joining do to nodes and roots. A join moves two
roots to one of them and leaves every other root alone. From that one
equation follows what a list of joins does, and with it merging.
-/

set_option autoImplicit false

namespace SimplexScript.Partition

variable {α : Type} [DecidableEq α] {p q : Partition α}

theorem root_congr (hp : p.Forest) (hq : q.Forest) (h : ∀ z, q.parent z = p.parent z) (z : α) :
    q.root z = p.root z := by
  have hlead : ∀ r, p.Leads z r → q.Leads z r := by
    intro r hr
    induction hr with
    | root hr => exact .root ((h _).trans hr)
    | step hx _ ih => exact .step ((h _).symm ▸ hx) ((h _).symm ▸ ih)
  exact root_eq hq (hlead _ (leads_root hp z))

theorem get?_links_add (p : Partition α) {x : α} (hx : x ∉ p.nodes) (z : α) :
    Table.get? (p.links ++ [(x, ⟨x, 0⟩)]) z =
      if x = z then some ⟨x, 0⟩ else Table.get? p.links z := by
  have happend : ∀ t : Table α (Link α), x ∉ Table.keys t →
      Table.get? (t ++ [(x, ⟨x, 0⟩)]) z = if x = z then some ⟨x, 0⟩ else Table.get? t z := by
    intro t ht
    induction t with
    | nil => rfl
    | cons e t ih =>
      obtain ⟨k, l⟩ := e
      simp only [Table.keys, List.map_cons, List.mem_cons, not_or] at ht
      have iht := ih ht.2
      by_cases hk : k = z
      · have hxz : x ≠ z := hk ▸ ht.1
        simp [Table.get?, hk, hxz]
      · simp [Table.get?, hk, iht]
  exact happend p.links hx

theorem nodes_add (p : Partition α) (x : α) :
    (p.add x).nodes = if x ∈ p.nodes then p.nodes else p.nodes ++ [x] := by
  unfold add
  by_cases h : x ∈ p.nodes
  · rw [if_pos (contains_iff.2 h), if_pos h]
  · rw [if_neg (mt contains_iff.1 h), if_neg h]
    simp [nodes, Table.keys]

theorem mem_nodes_add {x z : α} : z ∈ (p.add x).nodes ↔ z ∈ p.nodes ∨ z = x := by
  rw [nodes_add]
  by_cases h : x ∈ p.nodes
  · rw [if_pos h]
    constructor
    · exact Or.inl
    · rintro (hz | rfl)
      · exact hz
      · exact h
  · simp [h]

theorem add_of_mem {x : α} (h : x ∈ p.nodes) : p.add x = p := by
  rw [add, if_pos (contains_iff.2 h)]

theorem parent_add (p : Partition α) (x z : α) : (p.add x).parent z = p.parent z := by
  by_cases hx : x ∈ p.nodes
  · rw [add_of_mem hx]
  · rw [add, if_neg (mt contains_iff.1 hx)]
    by_cases hz : x = z
    · subst hz
      simp [parent, get?_links_add p hx, get?_of_not_mem hx]
    · simp [parent, get?_links_add p hx, hz]

theorem rank_add (p : Partition α) (x z : α) : (p.add x).rank z = p.rank z := by
  by_cases hx : x ∈ p.nodes
  · rw [add_of_mem hx]
  · rw [add, if_neg (mt contains_iff.1 hx)]
    by_cases hz : x = z
    · subst hz
      simp [rank, get?_links_add p hx, get?_of_not_mem hx]
    · simp [rank, get?_links_add p hx, hz]

theorem add_forest (hp : p.Forest) (x : α) : (p.add x).Forest := by
  refine ⟨?_, ?_, ?_⟩
  · rw [nodes_add]
    split
    · exact hp.nodup
    next h => exact hp.nodup.append (List.nodup_singleton x) (by simpa using h)
  · intro z hz
    rw [parent_add]
    rcases mem_nodes_add.1 hz with h | rfl
    · exact mem_nodes_add.2 (Or.inl (hp.parent_mem z h))
    · by_cases h : z ∈ p.nodes
      · exact mem_nodes_add.2 (Or.inl (hp.parent_mem z h))
      · rwa [parent_of_not_mem h]
  · intro z _ hne
    rw [parent_add] at hne
    rw [parent_add, rank_add, rank_add]
    exact hp.rank_lt z (mem_of_parent_ne hne) hne

theorem root_add (hp : p.Forest) (x z : α) : (p.add x).root z = p.root z :=
  root_congr hp (add_forest hp x) (parent_add p x) z

theorem find_fst (hp : p.Forest) (x : α) : (p.find x).1 = p.root x := root_add hp x x

theorem find_relinked (hp : p.Forest) (x : α) : Relinked (p.add x) (p.find x).2 :=
  relink_relinked _ (add_forest hp x) rfl

/-- A root `a` is hung below another root `b`, which may gain in rank. -/
structure Hung (p q : Partition α) (a b : α) : Prop where
  nodes : q.nodes = p.nodes
  parent : ∀ z, q.parent z = if a = z then b else p.parent z
  rank_eq : ∀ z, z ≠ b → q.rank z = p.rank z
  rank_le : p.rank b ≤ q.rank b
  rank_lt : p.rank a < q.rank b

theorem Hung.forest (hp : p.Forest) {a b : α} (h : Hung p q a b) (hb : b ∈ p.nodes)
    (hne : a ≠ b) (hroot : p.parent b = b) : q.Forest := by
  refine ⟨h.nodes ▸ hp.nodup, ?_, ?_⟩
  · intro z hz
    rw [h.nodes] at hz ⊢
    rw [h.parent]
    split
    · exact hb
    · exact hp.parent_mem z hz
  · intro z hz hz'
    rw [h.nodes] at hz
    rw [h.parent] at hz' ⊢
    by_cases haz : a = z
    · subst haz
      rw [if_pos rfl, h.rank_eq a hne]
      exact h.rank_lt
    · rw [if_neg haz] at hz' ⊢
      have hzb : z ≠ b := by
        rintro rfl
        exact hz' hroot
      have hlt := hp.rank_lt z hz hz'
      rw [h.rank_eq z hzb]
      by_cases hpb : p.parent z = b
      · rw [hpb] at hlt ⊢
        exact Nat.lt_of_lt_of_le hlt h.rank_le
      · rw [h.rank_eq _ hpb]
        exact hlt

theorem Hung.root (hp : p.Forest) {a b : α} (h : Hung p q a b) (hb : b ∈ p.nodes) (hne : a ≠ b)
    (ha : p.parent a = a) (hroot : p.parent b = b) (z : α) :
    q.root z = if p.root z = a then b else p.root z := by
  have hlead : ∀ z s, p.Leads z s → q.Leads z (if s = a then b else s) := by
    intro z s hs
    induction hs with
    | @root s hs =>
      by_cases hsa : s = a
      · subst hsa
        have hpa : q.parent s = b := by rw [h.parent, if_pos rfl]
        have hpb : q.parent b = b := by rw [h.parent, if_neg hne, hroot]
        rw [if_pos rfl]
        refine .step ?_ ?_
        · rw [hpa]
          exact hne.symm
        · rw [hpa]
          exact .root hpb
      · rw [if_neg hsa]
        exact .root (by rw [h.parent, if_neg (Ne.symm hsa), hs])
    | @step z s hz _ ih =>
      have haz : a ≠ z := by
        rintro rfl
        exact hz ha
      have hpz : q.parent z = p.parent z := by rw [h.parent, if_neg haz]
      refine .step ?_ ?_
      · rw [hpz]
        exact hz
      · rw [hpz]
        exact ih
  exact root_eq (h.forest hp hb hne hroot) (hlead z _ (leads_root hp z))

/-- The classes of `x` and `y` have become one, with the representative `w`. -/
structure Joined (p q : Partition α) (x y w : α) : Prop where
  forest : q.Forest
  nodes : q.nodes = ((p.add x).add y).nodes
  root : ∀ z, q.root z = if p.root z = p.root x ∨ p.root z = p.root y then w else p.root z

theorem Relinked.roots {r : Partition α} (hp : p.Forest) {x y : α}
    (hr : Relinked ((p.add x).add y) r) :
    (∀ z, r.root z = p.root z) ∧ p.root x ∈ r.nodes ∧ p.root y ∈ r.nodes := by
  have hroot : ∀ z, r.root z = p.root z := fun z => by
    rw [hr.root, root_add (add_forest hp x), root_add hp]
  have hmemx : x ∈ r.nodes := by
    rw [hr.nodes]
    exact mem_nodes_add.2 (Or.inl (mem_nodes_add.2 (Or.inr rfl)))
  have hmemy : y ∈ r.nodes := by
    rw [hr.nodes]
    exact mem_nodes_add.2 (Or.inr rfl)
  exact ⟨hroot, hroot x ▸ root_mem hr.forest hmemx, hroot y ▸ root_mem hr.forest hmemy⟩

theorem Hung.joined {r : Partition α} (hp : p.Forest) {x y : α}
    (hr : Relinked ((p.add x).add y) r) (hne : p.root x ≠ p.root y) {a b : α}
    (h : Hung r q a b)
    (hab : a = p.root x ∧ b = p.root y ∨ a = p.root y ∧ b = p.root x) :
    Joined p q x y b := by
  obtain ⟨hroot, hx, hy⟩ := hr.roots hp
  have hfix : ∀ z, r.parent (p.root z) = p.root z := fun z => by
    rw [← hroot]
    exact parent_root hr.forest z
  rcases hab with ⟨rfl, rfl⟩ | ⟨rfl, rfl⟩
  · refine ⟨h.forest hr.forest hy hne (hfix y), h.nodes.trans hr.nodes, ?_⟩
    intro z
    rw [h.root hr.forest hy hne (hfix x) (hfix y), hroot]
    by_cases hzx : p.root z = p.root x
    · simp [hzx]
    · by_cases hzy : p.root z = p.root y <;> simp [hzx, hzy]
  · refine ⟨h.forest hr.forest hx hne.symm (hfix x), h.nodes.trans hr.nodes, ?_⟩
    intro z
    rw [h.root hr.forest hx hne.symm (hfix y) (hfix x), hroot]
    by_cases hzy : p.root z = p.root y
    · simp [hzy]
    · by_cases hzx : p.root z = p.root x <;> simp [hzx, hzy]

theorem setParent_hung {a b : α} (ha : a ∈ p.nodes) (hlt : p.rank a < p.rank b) :
    Hung p (p.setParent a b) a b where
  nodes := nodes_setParent ha _
  parent := parent_setParent _ _
  rank_eq z _ := rank_setParent _ _ z
  rank_le := Nat.le_of_eq (rank_setParent _ _ _).symm
  rank_lt := by
    rw [rank_setParent]
    exact hlt

theorem setRank_hung {a b : α} (ha : a ∈ p.nodes) (hb : b ∈ p.nodes) (htie : p.rank b = p.rank a) :
    Hung p ((p.setParent a b).setRank b (p.rank b + 1)) a b := by
  have hmem : b ∈ (p.setParent a b).nodes := by
    rw [nodes_setParent ha]
    exact hb
  refine ⟨(nodes_setRank hmem _).trans (nodes_setParent ha _), ?_, ?_, ?_, ?_⟩
  · intro z
    rw [parent_setRank, parent_setParent]
  · intro z hz
    rw [rank_setRank, if_neg hz.symm, rank_setParent]
  · rw [rank_setRank, if_pos rfl]
    omega
  · rw [rank_setRank, if_pos rfl]
    omega

theorem find_find_relinked (hp : p.Forest) (x y : α) :
    Relinked ((p.add x).add y) ((p.find x).2.find y).2 := by
  have hx := find_relinked hp x
  have hy := find_relinked hx.forest y
  refine ⟨hy.forest, ?_, ?_, ?_⟩
  · rw [hy.nodes, nodes_add, nodes_add (p.add x), hx.nodes]
  · intro z
    rw [hy.rank, rank_add, hx.rank, rank_add (p.add x)]
  · intro z
    rw [hy.root, root_add hx.forest, hx.root, root_add (add_forest hp x)]

theorem union_joined (hp : p.Forest) (x y : α) :
    Joined p (p.union x y).2 x y (p.union x y).1 ∧
      (p.union x y).1 = if p.rank (p.root x) < p.rank (p.root y) then p.root y else p.root x := by
  have hr := find_find_relinked hp x y
  have hrx : (p.find x).1 = p.root x := find_fst hp x
  have hry : ((p.find x).2.find y).1 = p.root y := by
    rw [find_fst (find_relinked hp x).forest, (find_relinked hp x).root, root_add hp]
  have hrank : ∀ z, ((p.find x).2.find y).2.rank z = p.rank z := fun z => by
    rw [hr.rank, rank_add, rank_add]
  obtain ⟨hroot, hmemx, hmemy⟩ := hr.roots hp
  simp only [union, hrx, hry]
  by_cases heq : p.root x = p.root y
  · simp only [heq, if_true, Nat.lt_irrefl, if_false, and_true]
    refine ⟨hr.forest, hr.nodes, ?_⟩
    intro z
    rw [hroot]
    by_cases hz : p.root z = p.root y <;> simp [heq, hz]
  · rw [if_neg heq]
    by_cases hlt : p.rank (p.root x) < p.rank (p.root y)
    · have hlt' : ((p.find x).2.find y).2.rank (p.root x) <
          ((p.find x).2.find y).2.rank (p.root y) := by
        rw [hrank, hrank]
        exact hlt
      simp only [hlt, hlt', if_true, and_true]
      exact (setParent_hung hmemx hlt').joined hp hr heq (Or.inl ⟨rfl, rfl⟩)
    · have hlt' : ¬ ((p.find x).2.find y).2.rank (p.root x) <
          ((p.find x).2.find y).2.rank (p.root y) := by
        rw [hrank, hrank]
        exact hlt
      simp only [hlt, hlt', if_false, and_true]
      refine Hung.joined hp hr heq (a := p.root y) ?_ (Or.inr ⟨rfl, rfl⟩)
      by_cases htie : ((p.find x).2.find y).2.rank (p.root x) =
          ((p.find x).2.find y).2.rank (p.root y)
      · rw [if_pos htie]
        exact setRank_hung hmemy hmemx htie
      · rw [if_neg htie]
        exact setParent_hung hmemy (by omega)

def unions (p : Partition α) (pairs : List (α × α)) : Partition α :=
  pairs.foldl (fun p e => (p.union e.1 e.2).2) p

theorem absorb_eq_unions (p source : Partition α) :
    p.absorb source = p.unions (source.nodes.map fun x => (source.root x, x)) := by
  simp [absorb, unions, List.foldl_map]

theorem unions_forest (hp : p.Forest) (pairs : List (α × α)) : (p.unions pairs).Forest := by
  induction pairs generalizing p with
  | nil => exact hp
  | cons e pairs ih => exact ih (union_joined hp e.1 e.2).1.forest

theorem mem_nodes_union (hp : p.Forest) {x y z : α} :
    z ∈ (p.union x y).2.nodes ↔ z ∈ p.nodes ∨ z = x ∨ z = y := by
  rw [(union_joined hp x y).1.nodes, mem_nodes_add, mem_nodes_add, or_assoc]

theorem mem_nodes_unions (hp : p.Forest) {pairs : List (α × α)} {z : α} :
    z ∈ (p.unions pairs).nodes ↔ z ∈ p.nodes ∨ ∃ e ∈ pairs, z = e.1 ∨ z = e.2 := by
  induction pairs generalizing p with
  | nil => simp [unions]
  | cons e pairs ih =>
    have h := ih (union_joined hp e.1 e.2).1.forest
    simp only [unions, List.foldl_cons] at h ⊢
    rw [h, mem_nodes_union hp]
    simp only [List.mem_cons, exists_eq_or_imp, or_assoc]

theorem root_union_mono (hp : p.Forest) (x y : α) {a b : α} (h : p.root a = p.root b) :
    (p.union x y).2.root a = (p.union x y).2.root b := by
  have hj := (union_joined hp x y).1
  rw [hj.root, hj.root, h]

theorem root_union_pair (hp : p.Forest) (x y : α) :
    (p.union x y).2.root x = (p.union x y).2.root y := by
  have hj := (union_joined hp x y).1
  rw [hj.root, hj.root]
  simp

theorem root_unions_mono (hp : p.Forest) (pairs : List (α × α)) {a b : α}
    (h : p.root a = p.root b) : (p.unions pairs).root a = (p.unions pairs).root b := by
  induction pairs generalizing p with
  | nil => exact h
  | cons e pairs ih => exact ih (union_joined hp e.1 e.2).1.forest (root_union_mono hp e.1 e.2 h)

theorem root_unions_pair (hp : p.Forest) {pairs : List (α × α)} {e : α × α} (he : e ∈ pairs) :
    (p.unions pairs).root e.1 = (p.unions pairs).root e.2 := by
  induction pairs generalizing p with
  | nil => cases he
  | cons d pairs ih =>
    have hd := (union_joined hp d.1 d.2).1.forest
    rcases List.mem_cons.1 he with rfl | he
    · exact root_unions_mono hd pairs (root_union_pair hp e.1 e.2)
    · exact ih hd he

omit [DecidableEq α] in
theorem not_mem_empty (x : α) : x ∉ (empty : Partition α).nodes := List.not_mem_nil

theorem empty_forest : (empty : Partition α).Forest :=
  ⟨List.nodup_nil, fun x hx => absurd hx (not_mem_empty x), fun x hx => absurd hx (not_mem_empty x)⟩

theorem addAll_forest (hp : p.Forest) (xs : List α) : (p.addAll xs).Forest := by
  induction xs generalizing p with
  | nil => exact hp
  | cons x xs ih => exact ih (add_forest hp x)

theorem mem_nodes_addAll {xs : List α} {z : α} :
    z ∈ (p.addAll xs).nodes ↔ z ∈ p.nodes ∨ z ∈ xs := by
  induction xs generalizing p with
  | nil => simp [addAll]
  | cons x xs ih =>
    have h := ih (p := p.add x)
    simp only [addAll, List.foldl_cons] at h ⊢
    rw [h, mem_nodes_add, List.mem_cons, or_assoc]

theorem root_addAll (hp : p.Forest) (xs : List α) (z : α) : (p.addAll xs).root z = p.root z := by
  induction xs generalizing p with
  | nil => rfl
  | cons x xs ih => exact (ih (add_forest hp x)).trans (root_add hp x z)

theorem root_empty_addAll (xs : List α) (z : α) : ((empty : Partition α).addAll xs).root z = z := by
  rw [root_addAll empty_forest, root_of_not_mem empty_forest (not_mem_empty z)]

theorem addAll_of_subset {xs : List α} (h : ∀ x ∈ xs, x ∈ p.nodes) : p.addAll xs = p := by
  induction xs with
  | nil => rfl
  | cons x xs ih =>
    rw [addAll, List.foldl_cons, add_of_mem (h x (by simp))]
    exact ih fun y hy => h y (by simp [hy])

theorem merge_forest (p q : Partition α) : (p.merge q).Forest := by
  unfold merge
  rw [absorb_eq_unions, absorb_eq_unions]
  exact unions_forest (unions_forest (addAll_forest (addAll_forest empty_forest _) _) _) _

theorem mem_nodes_merge (hp : p.Forest) (hq : q.Forest) {z : α} :
    z ∈ (p.merge q).nodes ↔ z ∈ p.nodes ∨ z ∈ q.nodes := by
  have hbase := addAll_forest (addAll_forest (empty_forest (α := α)) p.nodes) q.nodes
  unfold merge
  rw [absorb_eq_unions, absorb_eq_unions, mem_nodes_unions (unions_forest hbase _),
    mem_nodes_unions hbase, mem_nodes_addAll, mem_nodes_addAll]
  constructor
  · rintro ((((h | h) | h) | ⟨e, he, h⟩) | ⟨e, he, h⟩)
    · exact absurd h (not_mem_empty z)
    · exact Or.inl h
    · exact Or.inr h
    · obtain ⟨x, hx, rfl⟩ := List.mem_map.1 he
      rcases h with rfl | rfl
      · exact Or.inl (root_mem hp hx)
      · exact Or.inl hx
    · obtain ⟨x, hx, rfl⟩ := List.mem_map.1 he
      rcases h with rfl | rfl
      · exact Or.inr (root_mem hq hx)
      · exact Or.inr hx
  · rintro (h | h)
    · exact Or.inl (Or.inl (Or.inl (Or.inr h)))
    · exact Or.inl (Or.inl (Or.inr h))

theorem root_merge_left (q : Partition α) {z : α} (hz : z ∈ p.nodes) :
    (p.merge q).root (p.root z) = (p.merge q).root z := by
  have hbase := addAll_forest (addAll_forest (empty_forest (α := α)) p.nodes) q.nodes
  unfold merge
  rw [absorb_eq_unions _ q, absorb_eq_unions _ p]
  apply root_unions_mono (unions_forest hbase _)
  exact root_unions_pair hbase (e := (p.root z, z)) (List.mem_map.2 ⟨z, hz, rfl⟩)

theorem root_merge_right (p : Partition α) {z : α} (hz : z ∈ q.nodes) :
    (p.merge q).root (q.root z) = (p.merge q).root z := by
  have hbase := addAll_forest (addAll_forest (empty_forest (α := α)) p.nodes) q.nodes
  unfold merge
  rw [absorb_eq_unions _ q, absorb_eq_unions _ p]
  exact root_unions_pair (unions_forest hbase _) (e := (q.root z, z))
    (List.mem_map.2 ⟨z, hz, rfl⟩)

end SimplexScript.Partition
