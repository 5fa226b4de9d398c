import Mathlib.Combinatorics.SimpleGraph.Connectivity.Connected
import SimplexScript.Proofs.Homology.Cycles

/-!
# Connected components

Two vertices are adjacent when some simplex holds both. The edges of a complex
bound the sums of two adjacent vertices, which say no more than that adjacent
vertices are the same. So vertices modulo boundaries are the components of the
graph, and the Betti number of degree zero counts them.
-/

set_option autoImplicit false

namespace SimplexScript

abbrev Complex.Vertex (c : Complex) := {v // v ∈ c.vertices}

/-- The vertices of a complex, adjacent when some simplex holds both. -/
def Complex.vertexGraph (c : Complex) : SimpleGraph c.Vertex where
  Adj v w := v ≠ w ∧ ∃ s ∈ c.maximal, v.1 ∈ s ∧ w.1 ∈ s
  symm := ⟨fun _ _ ⟨hne, s, hs, hv, hw⟩ => ⟨hne.symm, s, hs, hw, hv⟩⟩
  loopless := ⟨fun _ h => h.1 rfl⟩

namespace Homology

noncomputable section

variable (c : Complex)

def pointChain : (c.Vertex →₀ ZMod 2) →ₗ[ZMod 2] Chain :=
  Finsupp.lmapDomain (ZMod 2) (ZMod 2) fun v => {v.1}

def toComponents :
    (c.Vertex →₀ ZMod 2) →ₗ[ZMod 2] (c.vertexGraph.ConnectedComponent →₀ ZMod 2) :=
  Finsupp.lmapDomain (ZMod 2) (ZMod 2) c.vertexGraph.connectedComponentMk

theorem pointChain_single (v : c.Vertex) :
    pointChain c (Finsupp.single v 1) = Finsupp.single {v.1} 1 := by
  rw [pointChain, Finsupp.lmapDomain_apply, Finsupp.mapDomain_single]

theorem toComponents_single (v : c.Vertex) :
    toComponents c (Finsupp.single v 1) =
      Finsupp.single (c.vertexGraph.connectedComponentMk v) 1 := by
  rw [toComponents, Finsupp.lmapDomain_apply, Finsupp.mapDomain_single]

theorem pointChain_injective : Function.Injective (pointChain c) :=
  Finsupp.mapDomain_injective fun _ _ h => Subtype.ext (Multiset.singleton_inj.1 h)

theorem faceSet_zero : faceSet c 0 = Set.range fun v : c.Vertex => {v.1} := by
  ext m
  constructor
  · rintro ⟨hface, hcard⟩
    obtain ⟨v, rfl⟩ := Multiset.card_eq_one.1 (by omega : m.card = 1)
    exact ⟨⟨v, hface.mem_vertices (Multiset.mem_singleton_self v)⟩, rfl⟩
  · rintro ⟨⟨v, hv⟩, rfl⟩
    exact ⟨Complex.hasFace_singleton hv, by simp⟩

theorem range_pointChain : LinearMap.range (pointChain c) = faceChains c 0 := by
  rw [pointChain, LinearMap.range_eq_map, ← Finsupp.supported_univ, Finsupp.lmapDomain_supported,
    Set.image_univ, ← faceSet_zero, faceChains]

theorem boundary_edge (v w : String) :
    boundary (Finsupp.single {v, w} 1) = Finsupp.single {w} 1 + Finsupp.single {v} 1 := by
  have hpoint : boundary (Finsupp.single {w} 1) = Finsupp.single 0 1 := by
    simp [boundary_single, facetSum]
  have hedge : (Finsupp.single {v, w} 1 : Chain) = cone v (Finsupp.single {w} 1) :=
    (cone_single v {w}).symm
  rw [hedge, boundary_cone, hpoint, cone_single]
  rfl

theorem component_eq_of_mem {v w : c.Vertex} {s : Simplex} (hs : s ∈ c.maximal)
    (hv : v.1 ∈ s) (hw : w.1 ∈ s) :
    c.vertexGraph.connectedComponentMk v = c.vertexGraph.connectedComponentMk w := by
  by_cases hvw : v = w
  · rw [hvw]
  · exact SimpleGraph.ConnectedComponent.connectedComponentMk_eq_of_adj ⟨hvw, s, hs, hv, hw⟩

theorem boundaries_zero_le :
    boundaries c 0 ≤ (LinearMap.ker (toComponents c)).map (pointChain c) := by
  apply map_supported_le
  rintro m ⟨hface, hcard⟩
  obtain ⟨v, w, rfl⟩ := Multiset.card_eq_two.1 (by omega : m.card = 2)
  have hv : v ∈ c.vertices := hface.mem_vertices (by simp)
  have hw : w ∈ c.vertices := hface.mem_vertices (by simp)
  obtain ⟨s, hs, hvs, hws⟩ := hface.of_pair
  refine ⟨Finsupp.single ⟨w, hw⟩ 1 + Finsupp.single ⟨v, hv⟩ 1, ?_, ?_⟩
  · rw [SetLike.mem_coe, LinearMap.mem_ker, map_add, toComponents_single, toComponents_single,
      component_eq_of_mem c hs (v := ⟨v, hv⟩) (w := ⟨w, hw⟩) hvs hws, ← Finsupp.single_add,
      show (1 + 1 : ZMod 2) = 0 from rfl, Finsupp.single_zero]
  · rw [map_add, pointChain_single, pointChain_single, boundary_edge]

def pointClass : (c.Vertex →₀ ZMod 2) →ₗ[ZMod 2] Chain ⧸ boundaries c 0 :=
  (boundaries c 0).mkQ ∘ₗ pointChain c

theorem pointClass_eq_of_adj {v w : c.Vertex} (h : c.vertexGraph.Adj v w) :
    pointClass c (Finsupp.single v 1) = pointClass c (Finsupp.single w 1) := by
  obtain ⟨hne, s, hs, hv, hw⟩ := h
  have hface := Complex.hasFace_pair (Subtype.coe_ne_coe.2 hne) hs hv hw
  have hedge : Finsupp.single {v.1, w.1} 1 ∈ faceChains c 1 :=
    Finsupp.single_mem_supported _ _ ⟨hface, by simp⟩
  refine (Submodule.Quotient.eq _).2 ?_
  rw [pointChain_single, pointChain_single, ZModModule.sub_eq_add, add_comm, ← boundary_edge]
  exact Submodule.mem_map_of_mem hedge

theorem pointClass_eq_of_walk {v w : c.Vertex} (p : c.vertexGraph.Walk v w) :
    pointClass c (Finsupp.single v 1) = pointClass c (Finsupp.single w 1) := by
  induction p with
  | nil => rfl
  | cons h p ih => exact (pointClass_eq_of_adj c h).trans ih

def componentClass : c.vertexGraph.ConnectedComponent → Chain ⧸ boundaries c 0 :=
  SimpleGraph.ConnectedComponent.lift (fun v => pointClass c (Finsupp.single v 1))
    fun _ _ p _ => pointClass_eq_of_walk c p

theorem pointClass_eq_comp :
    pointClass c = Finsupp.linearCombination (ZMod 2) (componentClass c) ∘ₗ toComponents c := by
  apply Finsupp.lhom_ext'
  intro v
  apply LinearMap.ext_ring
  rw [LinearMap.comp_apply, LinearMap.comp_apply, LinearMap.comp_apply, Finsupp.lsingle_apply,
    toComponents_single, Finsupp.linearCombination_single, one_smul]
  rfl

/-- What is zero in every component is a boundary: up to boundaries a vertex is its component. -/
theorem map_ker_toComponents_le :
    (LinearMap.ker (toComponents c)).map (pointChain c) ≤ boundaries c 0 := by
  rintro x ⟨y, hy, rfl⟩
  have hclass : pointClass c y = 0 := by
    rw [pointClass_eq_comp, LinearMap.comp_apply, LinearMap.mem_ker.1 hy, map_zero]
  exact (Submodule.Quotient.mk_eq_zero _).1 hclass

theorem boundaries_zero :
    boundaries c 0 = (LinearMap.ker (toComponents c)).map (pointChain c) :=
  le_antisymm (boundaries_zero_le c) (map_ker_toComponents_le c)

/-- Points modulo boundaries have one dimension for each component. -/
theorem card_components_add_finrank :
    Nat.card c.vertexGraph.ConnectedComponent + Module.finrank (ZMod 2) (boundaries c 0) =
      Module.finrank (ZMod 2) (faceChains c 0) := by
  have hinj := pointChain_injective c
  have honto : LinearMap.range (toComponents c) = ⊤ :=
    LinearMap.range_eq_top.2 (Finsupp.mapDomain_surjective Quot.mk_surjective)
  have hsum := LinearMap.finrank_range_add_finrank_ker (toComponents c)
  have := Fintype.ofFinite c.vertexGraph.ConnectedComponent
  rw [honto, finrank_top, Module.finrank_finsupp_self, ← Nat.card_eq_fintype_card] at hsum
  -- boundaries are a copy of what the map onto the components sends to zero
  rw [← range_pointChain, LinearMap.finrank_range_of_inj hinj, boundaries_zero,
    ← (Submodule.equivMapOfInjective _ hinj _).finrank_eq, hsum]

end

/-- The Betti number of degree zero counts the components of the graph of vertices. -/
theorem betti_zero_counts_components (c : Complex)
    (hc : ∀ s ∈ c.maximal, s.length ≤ Simplex.maxVertices) :
    betti c 0 = .ok (Nat.card c.vertexGraph.ConnectedComponent : Int) := by
  obtain ⟨b, hb, hsum⟩ := betti_add_finrank_boundaries hc (Int.le_refl 0)
  have hpoints := card_components_add_finrank c
  rw [cycles, if_pos (Int.le_refl 0)] at hsum
  rw [hb]
  congr 2
  omega

/-- A path that ends in a simplex with a repeated vertex, an edge from a vertex to itself, a point,
and a simplex without vertices. -/
theorem betti_zero_counts_components_three :
    let c := Complex.ofSimplices [["a", "b"], ["d", "d"], ["b", "c", "b"], ["e"], []] .empty
    (∀ s ∈ c.maximal, s.length ≤ Simplex.maxVertices) ∧ betti c 0 = .ok 3 ∧
      Nat.card c.vertexGraph.ConnectedComponent = 3 := by
  intro c
  have hc : ∀ s ∈ c.maximal, s.length ≤ Simplex.maxVertices := by decide +kernel
  have hthree : betti c 0 = .ok 3 := by rfl
  have hcount := Except.ok.inj (hthree.symm.trans (betti_zero_counts_components c hc))
  exact ⟨hc, hthree, by omega⟩

end Homology

end SimplexScript
