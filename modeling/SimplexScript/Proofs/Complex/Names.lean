import SimplexScript.Complex.Basic
import SimplexScript.Proofs.Complex.Outcomes
import SimplexScript.Proofs.Partition.Union
import SimplexScript.Proofs.Simplex.Key

/-!
# Names in complexes

A complex is over a set of names if its partition is a forest of such names
that knows every vertex. The algebra invents no names: what it makes of
complexes over a set of names is a complex over that set.
-/

set_option autoImplicit false

namespace SimplexScript.Complex

theorem mem_vertices {c : Complex} {v : String} : v ∈ c.vertices ↔ ∃ s ∈ c.maximal, v ∈ s := by
  simp [vertices, mem_distinct, List.mem_flatten]

theorem mem_vertices_ofSimplices {ss : List Simplex} {p : Partition String} {v : String} :
    v ∈ (ofSimplices ss p).vertices ↔ ∃ s ∈ ss, v ∈ s := by
  rw [mem_vertices]
  constructor
  · rintro ⟨s, hs, hv⟩
    exact ⟨s, mem_of_mem_distinctBy hs, hv⟩
  · rintro ⟨s, hs, hv⟩
    obtain ⟨t, ht, hkey⟩ := exists_mem_distinctBy hs
    exact ⟨t, ht, (Simplex.key_eq_key.1 hkey).mem_iff.2 hv⟩

structure Over (N : String → Prop) (c : Complex) : Prop where
  forest : c.partition.Forest
  draft : c.draft = none
  known : ∀ v ∈ c.vertices, v ∈ c.partition.nodes
  names : ∀ x ∈ c.partition.nodes, N x

variable {N : String → Prop} {k l : Complex}

theorem Over.mono {M : String → Prop} (h : k.Over N) (hNM : ∀ x, N x → M x) : k.Over M :=
  ⟨h.forest, h.draft, h.known, fun x hx => hNM x (h.names x hx)⟩

theorem Over.view (h : k.Over N) (n : Notes) : (n.view k).Over N := by
  rw [Notes.view_of_draft_eq_none n h.draft]
  exact h

theorem Over.mem_of_simplex (h : k.Over N) {s : Simplex} (hs : s ∈ k.maximal) {v : String}
    (hv : v ∈ s) : v ∈ k.partition.nodes :=
  h.known v (mem_vertices.2 ⟨s, hs, hv⟩)

theorem over_ofSimplices {ss : List Simplex} {p : Partition String} (hp : p.Forest)
    (hknown : ∀ s ∈ ss, ∀ v ∈ s, v ∈ p.nodes) (hN : ∀ x ∈ p.nodes, N x) :
    (ofSimplices ss p).Over N := by
  refine ⟨hp, rfl, ?_, hN⟩
  intro v hv
  obtain ⟨s, hs, hvs⟩ := mem_vertices_ofSimplices.1 hv
  exact hknown s hs v hvs

theorem over_point {v : String} (hv : N v) : (point v).Over N := by
  apply over_ofSimplices (Partition.add_forest Partition.empty_forest v)
  · intro s hs w hw
    obtain rfl := List.mem_singleton.1 hs
    exact Partition.mem_nodes_add.2 (Or.inr (List.mem_singleton.1 hw))
  · intro x hx
    rcases Partition.mem_nodes_add.1 hx with h | rfl
    · exact absurd h (Partition.not_mem_empty x)
    · exact hv

theorem ofVertices_eq_ok {vs : List String} {c : Complex} (h : ofVertices vs = .ok c) :
    firstRepeated [] vs = none ∧
      c = ofSimplices (if vs = [] then [] else [vs]) (Partition.empty.addAll vs) := by
  unfold ofVertices at h
  split at h
  · cases h
  next hr =>
    cases h
    exact ⟨hr, rfl⟩

theorem mem_nodes_literal {vs : List String} {x : String} :
    x ∈ ((Partition.empty : Partition String).addAll vs).nodes ↔ x ∈ vs := by
  simp [Partition.mem_nodes_addAll, Partition.not_mem_empty]

theorem over_ofVertices {vs : List String} {c : Complex} (hvs : ∀ v ∈ vs, N v)
    (h : ofVertices vs = .ok c) : c.Over N := by
  obtain ⟨-, rfl⟩ := ofVertices_eq_ok h
  apply over_ofSimplices (Partition.addAll_forest Partition.empty_forest vs)
  · intro s hs v hv
    split at hs
    · cases hs
    · obtain rfl := List.mem_singleton.1 hs
      exact mem_nodes_literal.2 hv
  · exact fun x hx => hvs x (mem_nodes_literal.1 hx)

theorem mem_image {p : Partition String} {s : Simplex} {v : String} :
    v ∈ image p s ↔ ∃ w ∈ s, p.root w = v := by
  simp [image, mem_distinct]

theorem over_quotient {p : Partition String} (hp : p.Forest) {ss : List Simplex}
    (hN : ∀ x ∈ p.nodes, N x) (hss : ∀ s ∈ ss, ∀ v ∈ s, N v) :
    (ofSimplices (ss.map (image p)) (p.addAll ss.flatten)).Over N := by
  apply over_ofSimplices (Partition.addAll_forest hp _)
  · intro t ht v hv
    obtain ⟨s, hs, rfl⟩ := List.mem_map.1 ht
    obtain ⟨w, hw, rfl⟩ := mem_image.1 hv
    rw [Partition.mem_nodes_addAll]
    by_cases hwp : w ∈ p.nodes
    · exact Or.inl (Partition.root_mem hp hwp)
    · rw [Partition.root_of_not_mem hp hwp]
      exact Or.inr (List.mem_flatten.2 ⟨s, hs, hw⟩)
  · intro x hx
    rcases Partition.mem_nodes_addAll.1 hx with h | h
    · exact hN x h
    · obtain ⟨s, hs, hxs⟩ := List.mem_flatten.1 h
      exact hss s hs x hxs

theorem Over.merge (hk : k.Over N) (hl : l.Over N) :
    ∀ x ∈ (k.partition.merge l.partition).nodes, N x := by
  intro x hx
  rcases (Partition.mem_nodes_merge hk.forest hl.forest).1 hx with h | h
  · exact hk.names x h
  · exact hl.names x h

theorem Over.sides (hk : k.Over N) (hl : l.Over N) :
    ∀ s ∈ k.maximal ++ l.maximal, ∀ v ∈ s, N v := by
  intro s hs v hv
  rcases List.mem_append.1 hs with h | h
  · exact hk.names v (hk.mem_of_simplex h hv)
  · exact hl.names v (hl.mem_of_simplex h hv)

theorem mem_spans {k l : Complex} {u : Simplex} (hu : u ∈ spans k l) :
    ∃ s ∈ k.maximal, ∃ t ∈ l.maximal, u = distinct (s ++ t) := by
  simp only [spans, List.mem_flatMap, List.mem_map] at hu
  obtain ⟨s, hs, t, ht, rfl⟩ := hu
  exact ⟨s, hs, t, ht, rfl⟩

theorem Over.spanned (hk : k.Over N) (hl : l.Over N) : ∀ u ∈ spans k l, ∀ v ∈ u, N v := by
  intro u hu v hv
  obtain ⟨s, hs, t, ht, rfl⟩ := mem_spans hu
  rcases List.mem_append.1 ((mem_distinct v _).1 hv) with h | h
  · exact hk.names v (hk.mem_of_simplex hs h)
  · exact hl.names v (hl.mem_of_simplex ht h)

theorem joinPairs_eq_unions (p : Partition String) (m : Mapping) :
    joinPairs p m = p.unions m := rfl

theorem Over.glued (hk : k.Over N) (hl : l.Over N) {m : Mapping}
    (hm : ∀ e ∈ m, e.1 ∈ k.partition.nodes ∧ e.2 ∈ l.partition.nodes) :
    ∀ x ∈ (joinPairs (k.partition.merge l.partition) m).nodes, N x := by
  intro x hx
  rw [joinPairs_eq_unions, Partition.mem_nodes_unions (Partition.merge_forest _ _)] at hx
  rcases hx with h | ⟨e, he, rfl | rfl⟩
  · exact hk.merge hl x h
  · exact hk.names _ (hm e he).1
  · exact hl.names _ (hm e he).2

def star (r : String) (ws : List String) : Partition String :=
  (Partition.empty.add r).unions (ws.map fun w => (r, w))

theorem classPoint_eq (p : Partition String) (r : String) :
    classPoint p r = ofSimplices [[r]] (star r (p.block r)) := by
  simp [classPoint, star, Partition.unions, List.foldl_map]

theorem star_forest (r : String) (ws : List String) : (star r ws).Forest :=
  Partition.unions_forest (Partition.add_forest Partition.empty_forest r) _

theorem mem_nodes_star {r x : String} {ws : List String} :
    x ∈ (star r ws).nodes ↔ x = r ∨ x ∈ ws := by
  rw [star, Partition.mem_nodes_unions (Partition.add_forest Partition.empty_forest r),
    Partition.mem_nodes_add]
  constructor
  · rintro ((h | h) | ⟨e, he, h⟩)
    · exact absurd h (Partition.not_mem_empty x)
    · exact Or.inl h
    · obtain ⟨w, hw, rfl⟩ := List.mem_map.1 he
      rcases h with rfl | rfl
      · exact Or.inl rfl
      · exact Or.inr hw
  · rintro (h | h)
    · exact Or.inl (Or.inr h)
    · exact Or.inr ⟨(r, x), List.mem_map.2 ⟨x, h, rfl⟩, Or.inr rfl⟩

theorem latest_mem (order : Table String Number) (best : String) (vs : List String) :
    latest order best vs ∈ best :: vs := by
  induction vs generalizing best with
  | nil => simp [latest]
  | cons v vs ih =>
    rw [latest]
    split
    · exact List.mem_cons_of_mem _ (ih v)
    · rcases List.mem_cons.1 (ih best) with h | h
      · rw [h]
        simp
      · exact List.mem_cons_of_mem _ (List.mem_cons_of_mem _ h)

theorem latestVertex?_mem {c : Complex} {order : Table String Number} {v : String}
    (h : c.latestVertex? order = some v) : v ∈ c.vertices := by
  unfold latestVertex? at h
  split at h
  · cases h
  next w ws hw =>
    cases h
    rw [hw]
    exact latest_mem order w ws

theorem Over.picked (hk : k.Over N) {order : Table String Number} {v : String}
    (hv : k.latestVertex? order = some v) :
    (k.withNodes [v]).partition = k.partition ∧ v ∈ k.partition.nodes := by
  have hmem := hk.known v (latestVertex?_mem hv)
  exact ⟨Partition.addAll_of_subset (by simpa using hmem), hmem⟩

theorem over_classPoint (hk : k.Over N) {v : String} (hv : v ∈ k.partition.nodes) :
    (classPoint k.partition (k.partition.root v)).Over N := by
  have hr := Partition.root_mem hk.forest hv
  rw [classPoint_eq]
  apply over_ofSimplices (star_forest _ _)
  · intro s hs w hw
    obtain rfl := List.mem_singleton.1 hs
    exact mem_nodes_star.2 (Or.inl (List.mem_singleton.1 hw))
  · intro x hx
    rcases mem_nodes_star.1 hx with rfl | h
    · exact hk.names _ hr
    · exact hk.names x ((Partition.mem_block hr).1 h).1

end SimplexScript.Complex
