import SimplexScript.Proofs.Complex.DisjointJoin
import SimplexScript.Proofs.Homology.Components

/-!
# Cones have the homology of a point

The join of a complex with a new point spans every face with the apex. So a
chain is contracted by spanning its simplices without the apex, and a cycle is
the boundary of its contraction. In degree zero the apex is adjacent to every
other vertex, which leaves one component.
-/

set_option autoImplicit false

namespace SimplexScript

namespace Homology

noncomputable section

/-- Spans the simplices without the apex by it and drops the others. -/
def contract (v : String) : Chain →ₗ[ZMod 2] Chain :=
  Finsupp.linearCombination (ZMod 2) fun m => if v ∈ m then 0 else Finsupp.single (v ::ₘ m) 1

variable {v : String} {m : Multiset String}

theorem contract_single_of_mem (h : v ∈ m) : contract v (Finsupp.single m 1) = 0 := by
  rw [contract, Finsupp.linearCombination_single, one_smul, if_pos h]

theorem contract_single_of_not_mem (h : v ∉ m) :
    contract v (Finsupp.single m 1) = cone v (Finsupp.single m 1) := by
  rw [contract, Finsupp.linearCombination_single, one_smul, if_neg h, cone_single]

theorem contract_cone (v : String) (x : Chain) : contract v (cone v x) = 0 := by
  have hmaps : contract v ∘ₗ cone v = 0 := by
    apply chain_hom_ext
    intro m
    simp only [LinearMap.comp_apply, LinearMap.zero_apply]
    rw [cone_single, contract_single_of_mem (Multiset.mem_cons_self v m)]
  exact LinearMap.congr_fun hmaps x

theorem contract_facetSum (h : v ∉ m) : contract v (facetSum m) = cone v (facetSum m) := by
  rw [facetSum, map_multiset_sum, map_multiset_sum, Multiset.map_map, Multiset.map_map]
  congr 1
  apply Multiset.map_congr rfl
  intro w _
  exact contract_single_of_not_mem fun hv => h (Multiset.mem_of_mem_erase hv)

theorem boundary_contract_single (h : m.count v ≤ 1) :
    boundary (contract v (Finsupp.single m 1)) + contract v (boundary (Finsupp.single m 1)) =
      Finsupp.single m 1 := by
  by_cases hv : v ∈ m
  · obtain ⟨n, rfl⟩ := Multiset.exists_cons_of_mem hv
    have hn : v ∉ n := by
      rw [Multiset.count_cons_self] at h
      exact Multiset.count_eq_zero.1 (by omega)
    -- deleting the apex leaves the simplex to be spanned again, and every other facet holds it
    rw [contract_single_of_mem hv, map_zero, zero_add, boundary_single, facetSum_cons, map_add,
      contract_single_of_not_mem hn, contract_cone, add_zero, cone_single]
  · rw [contract_single_of_not_mem hv, boundary_cone, boundary_single, contract_facetSum hv,
      add_assoc, ZModModule.add_self, add_zero]

theorem boundary_contract {S : Set (Multiset String)} (hS : ∀ m ∈ S, m.count v ≤ 1) {x : Chain}
    (hx : x ∈ Finsupp.supported (ZMod 2) (ZMod 2) S) :
    boundary (contract v x) + contract v (boundary x) = x :=
  eq_on_supported (f := boundary ∘ₗ contract v + contract v ∘ₗ boundary) (g := LinearMap.id)
    (fun m hm => boundary_contract_single (hS m hm)) hx

end

/-- A complex that holds an apex, in no face twice, and spans every other face with it. -/
structure IsCone (v : String) (c : Complex) : Prop where
  apex : c.HasFace {v}
  once : ∀ m, c.HasFace m → m.count v ≤ 1
  spans : ∀ m, c.HasFace m → v ∉ m → c.HasFace (v ::ₘ m)

def Acyclic (c : Complex) : Prop := betti c 0 = .ok 1 ∧ ∀ k : Int, k ≠ 0 → betti c k = .ok 0

namespace IsCone

variable {v : String} {c : Complex} (h : IsCone v c)

include h

theorem map_contract_le (k : Int) :
    (faceChains c k).map (contract v) ≤ faceChains c (k + 1) := by
  apply map_supported_le
  rintro m ⟨hface, hcard⟩
  by_cases hv : v ∈ m
  · rw [contract_single_of_mem hv]
    exact Submodule.zero_mem _
  · rw [contract_single_of_not_mem hv, cone_single]
    refine Finsupp.single_mem_supported _ _ ⟨h.spans m hface hv, ?_⟩
    rw [Multiset.card_cons]
    omega

theorem cycles_le {k : Int} (hk : 0 < k) : cycles c k ≤ boundaries c k := by
  rw [cycles, if_neg (by omega)]
  rintro x ⟨hx, hzero⟩
  have hback := boundary_contract (v := v) (fun m hm => h.once m hm.1) hx
  rw [LinearMap.mem_ker.1 hzero, map_zero, add_zero] at hback
  exact ⟨contract v x, h.map_contract_le k (Submodule.mem_map_of_mem hx), hback⟩

theorem connected : c.vertexGraph.Connected := by
  have hv : v ∈ c.vertices := h.apex.mem_vertices (Multiset.mem_singleton_self v)
  have hreach : ∀ w, c.vertexGraph.Reachable ⟨v, hv⟩ w := by
    rintro ⟨w, hw⟩
    by_cases hvw : v = w
    · subst hvw
      exact SimpleGraph.Reachable.refl _
    · have hedge := h.spans {w} (Complex.hasFace_singleton hw) (mt Multiset.mem_singleton.1 hvw)
      exact SimpleGraph.Adj.reachable ⟨mt (congrArg Subtype.val) hvw, hedge.of_pair⟩
  have : Nonempty c.Vertex := ⟨⟨v, hv⟩⟩
  exact ⟨fun w u => (hreach w).symm.trans (hreach u)⟩

theorem betti_zero (hc : ∀ s ∈ c.maximal, s.length ≤ Simplex.maxVertices) :
    betti c 0 = .ok 1 := by
  obtain ⟨b, hb, hsum⟩ := betti_add_finrank_boundaries hc (Int.le_refl 0)
  have hpoints := card_components_add_finrank c
  have hone : Nat.card c.vertexGraph.ConnectedComponent = 1 := by
    have hconn := h.connected
    have := hconn.preconnected.subsingleton_connectedComponent
    have := hconn.nonempty
    exact Nat.card_unique
  rw [cycles, if_pos (Int.le_refl 0)] at hsum
  obtain rfl : b = 1 := by omega
  exact hb

theorem betti_of_ne_zero (hc : ∀ s ∈ c.maximal, s.length ≤ Simplex.maxVertices) {k : Int}
    (hk : k ≠ 0) : betti c k = .ok 0 := by
  by_cases hneg : k < 0
  · rw [betti, if_pos (Or.inl hneg)]
  · obtain ⟨b, hb, hsum⟩ := betti_add_finrank_boundaries hc (k := k) (by omega)
    have hle := Submodule.finrank_mono (h.cycles_le (k := k) (by omega))
    obtain rfl : b = 0 := by omega
    exact hb

end IsCone

end Homology

namespace Complex

open Homology

/-- A face of a join of complexes without common vertices is a part of a simplex of one and a
simplex of the other together. -/
theorem IsJoin.hasFace_iff {k l r : Complex} (h : IsJoin k l r) (hk : k.Canonical)
    (hl : l.Canonical) (hkl : ∀ v ∈ k.vertices, v ∉ l.vertices) {m : Multiset String} :
    r.HasFace m ↔ m ≠ 0 ∧ ∃ s ∈ k.maximal, ∃ t ∈ l.maximal, m ≤ (s + t : Multiset String) := by
  refine and_congr_right fun _ => ⟨?_, ?_⟩
  · rintro ⟨u, hu, hle⟩
    obtain ⟨s, hs, t, ht, hperm⟩ := h.source u hu
    rw [distinct_append_of_apart hk hl hkl hs ht] at hperm
    exact ⟨s, hs, t, ht, hle.trans (Multiset.coe_eq_coe.2 hperm).le⟩
  · rintro ⟨s, hs, t, ht, hle⟩
    obtain ⟨u, hu, hperm⟩ := h.span s hs t ht
    rw [distinct_append_of_apart hk hl hkl hs ht] at hperm
    exact ⟨u, hu, hle.trans (Multiset.coe_eq_coe.2 hperm).ge⟩

section Cone

variable {c r : Complex} {v : String}

theorem IsJoin.isCone (h : IsJoin c (point v) r) (hc : c.Proper) (hv : v ∉ c.partition.nodes) :
    IsCone v r := by
  have hcons : ∀ s : Simplex, (s + ([v] : Simplex) : Multiset String) = v ::ₘ s := by
    intro s
    rw [Multiset.coe_singleton, add_comm, Multiset.singleton_add]
  have hface : ∀ {m : Multiset String}, r.HasFace m ↔
      m ≠ 0 ∧ ∃ s ∈ c.maximal, m ≤ v ::ₘ (s : Multiset String) := by
    intro m
    rw [h.hasFace_iff hc.toCanonical (proper_point v).toCanonical (apart_point hc.toCanonical hv)]
    simp only [mem_maximal_point, exists_eq_left, hcons]
  constructor
  · obtain ⟨s, hs⟩ := List.exists_mem_of_ne_nil _ hc.maximal_ne_nil
    exact hface.2 ⟨by simp, s, hs, by simp⟩
  · intro m hm
    obtain ⟨-, s, hs, hle⟩ := hface.1 hm
    have hcount := Multiset.count_le_of_le v hle
    have hzero : (s : Multiset String).count v = 0 :=
      Multiset.count_eq_zero.2 fun hvs => hv (hc.mem_of_simplex hs hvs)
    rwa [Multiset.count_cons_self, hzero] at hcount
  · intro m hm hvm
    obtain ⟨-, s, hs, hle⟩ := hface.1 hm
    exact hface.2 ⟨Multiset.cons_ne_zero, s, hs,
      Multiset.cons_le_cons v ((Multiset.le_cons_of_notMem hvm).1 hle)⟩

theorem IsJoin.acyclic (h : IsJoin c (point v) r) (hc : c.Proper) (hv : v ∉ c.partition.nodes)
    (hlen : ∀ s ∈ c.maximal, s.length < Simplex.maxVertices) : Acyclic r := by
  have hcone := h.isCone hc hv
  have hapart := apart_point hc.toCanonical hv
  have hbound : ∀ u ∈ r.maximal, u.length ≤ Simplex.maxVertices := by
    intro u hu
    obtain ⟨s, hs, t, ht, hperm⟩ := h.source u hu
    rw [distinct_append_of_apart hc.toCanonical (proper_point v).toCanonical hapart hs ht,
      mem_maximal_point.1 ht] at hperm
    have hsize := hlen s hs
    rw [hperm.length_eq, List.length_append, List.length_singleton]
    omega
  exact ⟨hcone.betti_zero hbound, fun k hk => hcone.betti_of_ne_zero hbound hk⟩

end Cone

/-- A cone over a canonical complex, its join with a new point, exists and has the Betti numbers of
a point. A literal with more than one vertex is the cone over the literal without its last vertex,
and so has them too. -/
theorem join_point_acyclic :
    (∀ c : Complex, c.Formed → c.Canonical → c.maximal ≠ [] →
      (∀ s ∈ c.maximal, s.length < Simplex.maxVertices) →
      ∀ v, v ∉ c.partition.nodes → ∃ r, c.join (point v) = .ok r ∧ Acyclic r) ∧
    ∀ (vs : List String) (v : String), vs ≠ [] → (vs ++ [v]).Nodup →
      vs.length < Simplex.maxVertices →
      ∃ k l r, ofVertices vs = .ok k ∧ ofVertices (vs ++ [v]) = .ok l ∧
        k.join (point v) = .ok r ∧ SameSimplices r l ∧ Acyclic l := by
  constructor
  · intro c hf hc hne hlen v hv
    have hproper := hf.proper hc hne
    obtain ⟨r, hr, hjoin⟩ := exists_join_point hf.forest hproper hv
    exact ⟨r, hr, hjoin.acyclic hproper hv hlen⟩
  · intro vs v hne hnodup hlen
    obtain ⟨hvs, -, hapart⟩ := List.nodup_append'.1 hnodup
    have hproper := proper_literal hne hvs
    have hv : v ∉ (literal vs).partition.nodes := fun hmem =>
      hapart (mem_nodes_literal.1 hmem) (List.mem_singleton_self v)
    have hlen' : ∀ s ∈ (literal vs).maximal, s.length < Simplex.maxVertices := by
      intro s hs
      rwa [List.mem_singleton.1 hs]
    have hcone : IsJoin (literal vs) (point v) (literal (vs ++ [v])) := isJoin_literal hne hnodup
    obtain ⟨r, hr, hjoin⟩ := exists_join_point (forest_literal vs) hproper hv
    exact ⟨_, _, r, ofVertices_of_nodup hne hvs, ofVertices_of_nodup (by simp) hnodup, hr,
      hjoin.unique hcone, hcone.acyclic hproper hv hlen'⟩

/-- The cone over a circle, one vertex of which has two names, fills it. -/
theorem join_point_acyclic_circle :
    let c := ofSimplices [["a", "b"], ["b", "c"], ["a", "c"]]
      ((Partition.empty.addAll ["a", "b", "c"]).union "c" "d").2
    betti c 1 = .ok 1 ∧ c.Canonical ∧ "e" ∉ c.partition.nodes ∧
      (∃ r, c.join (point "e") = .ok r ∧ Acyclic r) ∧
      ∃ k l r, ofVertices ["a", "b"] = .ok k ∧ ofVertices ["a", "b", "c"] = .ok l ∧
        k.join (point "c") = .ok r ∧ SameSimplices r l ∧ Acyclic l := by
  intro c
  have hloop : betti c 1 = .ok 1 := by rfl
  have hf : c.Formed := formed_ofSimplices (Partition.union_joined
    (Partition.addAll_forest Partition.empty_forest _) "c" "d").1.forest _
  have hc : c.Canonical :=
    ⟨by decide +kernel, by decide +kernel, by decide +kernel, by decide +kernel⟩
  have hne : c.maximal ≠ [] := by decide +kernel
  have hlen : ∀ s ∈ c.maximal, s.length < Simplex.maxVertices := by decide +kernel
  have hv : "e" ∉ c.partition.nodes := by decide +kernel
  exact ⟨hloop, hc, hv, join_point_acyclic.1 c hf hc hne hlen "e" hv,
    join_point_acyclic.2 ["a", "b"] "c" (by decide) (by decide) (by decide)⟩

end Complex

end SimplexScript
