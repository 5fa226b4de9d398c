import Mathlib.Algebra.Field.ZMod
import Mathlib.Algebra.Module.ZMod
import Mathlib.LinearAlgebra.Finsupp.LinearCombination
import Mathlib.LinearAlgebra.Span.Basic
import SimplexScript.Complex.Basic

/-!
# Chains modulo two

A chain is a formal sum of simplices, which are multisets of vertices here,
since the order of vertices is of no account. The boundary of a simplex is the
sum of what is left of it when one vertex is deleted, each repetition of a
vertex apart. The boundary of a cone shows that boundaries have no boundary.
-/

set_option autoImplicit false

namespace SimplexScript.Homology

noncomputable section

abbrev Chain := Multiset String →₀ ZMod 2

section Maps

variable {M : Type} [AddCommGroup M] [Module (ZMod 2) M] {f g : Chain →ₗ[ZMod 2] M}

theorem eq_on_supported {S : Set (Multiset String)}
    (h : ∀ m ∈ S, f (Finsupp.single m 1) = g (Finsupp.single m 1)) {x : Chain}
    (hx : x ∈ Finsupp.supported (ZMod 2) (ZMod 2) S) : f x = g x := by
  rw [Finsupp.supported_eq_span_single] at hx
  have hmaps : Set.EqOn f g ((fun m => Finsupp.single m 1) '' S) := by
    rintro y ⟨m, hm, rfl⟩
    exact h m hm
  exact LinearMap.eqOn_span hmaps hx

theorem map_supported_le {S : Set (Multiset String)} {W : Submodule (ZMod 2) M}
    (h : ∀ m ∈ S, f (Finsupp.single m 1) ∈ W) :
    (Finsupp.supported (ZMod 2) (ZMod 2) S).map f ≤ W := by
  rw [Finsupp.supported_eq_span_single, Submodule.map_span_le]
  rintro y ⟨m, hm, rfl⟩
  exact h m hm

theorem chain_hom_ext (h : ∀ m, f (Finsupp.single m 1) = g (Finsupp.single m 1)) : f = g := by
  apply Finsupp.lhom_ext'
  intro m
  exact LinearMap.ext_ring (h m)

end Maps

/-- The sum of the simplices that one vertex less leaves. -/
def facetSum (m : Multiset String) : Chain := (m.map fun v => Finsupp.single (m.erase v) 1).sum

def boundary : Chain →ₗ[ZMod 2] Chain := Finsupp.linearCombination (ZMod 2) facetSum

theorem boundary_single (m : Multiset String) : boundary (Finsupp.single m 1) = facetSum m := by
  rw [boundary, Finsupp.linearCombination_single, one_smul]

def cone (v : String) : Chain →ₗ[ZMod 2] Chain :=
  Finsupp.lmapDomain (ZMod 2) (ZMod 2) (Multiset.cons v)

theorem cone_single (v : String) (m : Multiset String) :
    cone v (Finsupp.single m 1) = Finsupp.single (v ::ₘ m) 1 := by
  rw [cone, Finsupp.lmapDomain_apply, Finsupp.mapDomain_single]

theorem facetSum_cons (v : String) (m : Multiset String) :
    facetSum (v ::ₘ m) = Finsupp.single m 1 + cone v (facetSum m) := by
  have herase : ∀ w ∈ m, (v ::ₘ m).erase w = v ::ₘ m.erase w := by
    intro w hw
    by_cases h : w = v
    · rw [h, Multiset.erase_cons_head, Multiset.cons_erase (h ▸ hw)]
    · exact Multiset.erase_cons_tail m (Ne.symm h)
  have hmap : (m.map fun w => (Finsupp.single ((v ::ₘ m).erase w) 1 : Chain)) =
      m.map fun w => cone v (Finsupp.single (m.erase w) 1) := by
    apply Multiset.map_congr rfl
    intro w hw
    rw [herase w hw, cone_single]
  rw [facetSum, Multiset.map_cons, Multiset.sum_cons, Multiset.erase_cons_head, hmap, facetSum,
    map_multiset_sum, Multiset.map_map]
  rfl

theorem boundary_cone (v : String) (x : Chain) : boundary (cone v x) = x + cone v (boundary x) := by
  have hmaps : boundary ∘ₗ cone v = LinearMap.id + cone v ∘ₗ boundary := by
    apply chain_hom_ext
    intro m
    simp only [LinearMap.comp_apply, LinearMap.add_apply, LinearMap.id_apply]
    rw [cone_single, boundary_single, boundary_single, facetSum_cons]
  exact LinearMap.congr_fun hmaps x

theorem boundary_facetSum (m : Multiset String) : boundary (facetSum m) = 0 := by
  induction m using Multiset.induction with
  | empty => simp [facetSum]
  | cons v m ih =>
    rw [facetSum_cons, map_add, boundary_single, boundary_cone, ih, map_zero, add_zero]
    exact ZModModule.add_self (facetSum m)

theorem boundary_boundary (x : Chain) : boundary (boundary x) = 0 := by
  have hmaps : boundary ∘ₗ boundary = 0 := by
    apply chain_hom_ext
    intro m
    simp only [LinearMap.comp_apply, LinearMap.zero_apply]
    rw [boundary_single, boundary_facetSum]
  exact LinearMap.congr_fun hmaps x

def cell (s : Simplex) : Chain := Finsupp.single (s : Multiset String) 1

theorem cell_eq_of_perm {s t : Simplex} (h : s.Perm t) : cell s = cell t := by
  rw [cell, cell, Multiset.coe_eq_coe.2 h]

theorem boundary_cell (s : Simplex) : boundary (cell s) = ((Simplex.facets s).map cell).sum := by
  rw [cell, boundary_single]
  induction s with
  | nil => rfl
  | cons v s ih =>
    have hfacets : Simplex.facets (v :: s) = s :: (Simplex.facets s).map (List.cons v) := by
      simp [Simplex.facets, List.range_succ_eq_map, Function.comp_def]
    have hcone : ∀ t : Simplex, cone v (cell t) = cell (v :: t) := fun t => cone_single v t
    rw [← Multiset.cons_coe, facetSum_cons, ih, hfacets, map_list_sum, List.map_cons,
      List.sum_cons, List.map_map, List.map_map]
    simp only [Function.comp_def, hcone]
    rfl

def cells (faces : List Simplex) (k : Int) : Set (Multiset String) :=
  {m | ∃ s ∈ faces, (s.length : Int) = k + 1 ∧ (s : Multiset String) = m}

def chains (faces : List Simplex) (k : Int) : Submodule (ZMod 2) Chain :=
  Finsupp.supported (ZMod 2) (ZMod 2) (cells faces k)

/-- The boundary of chains of degree `k`. In degree zero it is zero. -/
def differential (faces : List Simplex) (k : Int) : chains faces k →ₗ[ZMod 2] Chain :=
  if k ≤ 0 then 0 else boundary.domRestrict (chains faces k)

end

end SimplexScript.Homology
