import Mathlib.LinearAlgebra.Finsupp.VectorSpace
import Mathlib.LinearAlgebra.Matrix.Rank
import SimplexScript.Proofs.Homology.Chains
import SimplexScript.Proofs.Homology.Faces
import SimplexScript.Proofs.Homology.Rank

/-!
# The incidence matrix is the boundary

Listed faces, no two of them the same, are coordinates of the chains over
them. In coordinates the boundary is the incidence matrix, so the rank that
elimination counts is the dimension of the space of boundaries.
-/

set_option autoImplicit false

namespace SimplexScript.Homology

noncomputable section

def coordinates (fs : List Simplex) : (Fin fs.length → ZMod 2) →ₗ[ZMod 2] Chain :=
  Fintype.linearCombination (ZMod 2) fun j => cell (fs.get j)

theorem get_perm_inj {fs : List Simplex} (h : fs.Pairwise fun s t => ¬ s.Perm t)
    {i j : Fin fs.length} (hp : (fs.get i).Perm (fs.get j)) : i = j := by
  rw [List.pairwise_iff_get] at h
  rcases lt_trichotomy i j with hij | hij | hij
  · exact absurd hp (h i j hij)
  · exact hij
  · exact absurd hp.symm (h j i hij)

theorem coordinates_injective {fs : List Simplex} (h : fs.Pairwise fun s t => ¬ s.Perm t) :
    Function.Injective (coordinates fs) := by
  have hinj : Function.Injective fun j => (fs.get j : Multiset String) :=
    fun i j hij => get_perm_inj h (Multiset.coe_eq_coe.1 hij)
  have hind := (Finsupp.linearIndependent_single_one (ZMod 2) (Multiset String)).comp _ hinj
  exact hind.fintypeLinearCombination_injective

theorem range_coordinates (faces : List Simplex) (k : Int) :
    LinearMap.range (coordinates (ofDegree k faces)) = chains faces k := by
  rw [coordinates, Fintype.range_linearCombination, chains, Finsupp.supported_eq_span_single]
  congr 1
  ext x
  simp only [Set.mem_range, Set.mem_image, cells, Set.mem_ofPred_eq]
  constructor
  · rintro ⟨j, rfl⟩
    have hmem := List.get_mem (ofDegree k faces) j
    simp only [ofDegree, List.mem_filter, decide_eq_true_eq] at hmem
    exact ⟨_, ⟨_, hmem.1, hmem.2, rfl⟩, rfl⟩
  · rintro ⟨m, ⟨s, hs, hlen, rfl⟩, rfl⟩
    have hmem : s ∈ ofDegree k faces := by
      simp only [ofDegree, List.mem_filter, decide_eq_true_eq]
      exact ⟨hs, hlen⟩
    obtain ⟨j, hj⟩ := List.get_of_mem hmem
    exact ⟨j, by rw [hj]; rfl⟩

theorem finrank_chains {faces : List Simplex} (h : faces.Pairwise fun s t => ¬ s.Perm t) (k : Int) :
    Module.finrank (ZMod 2) (chains faces k) = (ofDegree k faces).length := by
  have hinj : Function.Injective (coordinates (ofDegree k faces)) :=
    coordinates_injective (h.filter _)
  rw [← range_coordinates, LinearMap.finrank_range_of_inj hinj, Module.finrank_fin_fun]

instance finite_chains (faces : List Simplex) (k : Int) :
    Module.Finite (ZMod 2) (chains faces k) := by
  rw [← range_coordinates]
  infer_instance

/-- How often deleting a vertex of a face leaves a lower face, modulo two. -/
def incidenceMatrix (faces lower : List Simplex) :
    Matrix (Fin lower.length) (Fin faces.length) (ZMod 2) :=
  fun i j =>
    (((Simplex.facets (faces.get j)).map Simplex.key).count (Simplex.key (lower.get i)) : Nat)

theorem sum_cells {lower : List Simplex} (hl : lower.Pairwise fun s t => ¬ s.Perm t)
    {ts : List Simplex} (hts : ∀ t ∈ ts, ∃ u ∈ lower, u.Perm t) :
    (ts.map cell).sum =
      ∑ i, (((ts.map Simplex.key).count (Simplex.key (lower.get i)) : Nat) : ZMod 2) •
        cell (lower.get i) := by
  induction ts with
  | nil => simp
  | cons t ts ih =>
    obtain ⟨u, hu, hperm⟩ := hts t (by simp)
    obtain ⟨i, rfl⟩ := List.get_of_mem hu
    have hone : ∑ j, (if Simplex.key t = Simplex.key (lower.get j) then (1 : ZMod 2) else 0) •
        cell (lower.get j) = cell t := by
      rw [Finset.sum_eq_single i]
      · rw [if_pos (Simplex.key_eq_key.2 hperm.symm), one_smul, cell_eq_of_perm hperm]
      · intro j _ hj
        have hkey : Simplex.key t ≠ Simplex.key (lower.get j) :=
          fun he => hj (get_perm_inj hl (hperm.trans (Simplex.key_eq_key.1 he))).symm
        rw [if_neg hkey, zero_smul]
      · exact fun hi => absurd (Finset.mem_univ i) hi
    rw [List.map_cons, List.sum_cons, ih fun s hs => hts s (by simp [hs]), ← hone,
      ← Finset.sum_add_distrib]
    apply Finset.sum_congr rfl
    intro j _
    rw [List.map_cons, List.count_cons, Nat.cast_add, ← add_smul, add_comm]
    congr 2
    by_cases hkey : Simplex.key t = Simplex.key (lower.get j) <;> simp [hkey]

theorem boundary_coordinates {faces lower : List Simplex}
    (hl : lower.Pairwise fun s t => ¬ s.Perm t)
    (hfacet : ∀ s ∈ faces, ∀ t ∈ Simplex.facets s, ∃ u ∈ lower, u.Perm t) :
    boundary ∘ₗ coordinates faces =
      coordinates lower ∘ₗ (incidenceMatrix faces lower).mulVecLin := by
  apply LinearMap.pi_ext'
  intro j
  apply LinearMap.ext_ring
  have hleft : coordinates faces (Pi.single j 1) = cell (faces.get j) := by
    rw [coordinates, Fintype.linearCombination_apply_single, one_smul]
  simp only [LinearMap.comp_apply, LinearMap.coe_single, Matrix.mulVecLin_apply,
    Matrix.mulVec_single_one]
  rw [hleft, boundary_cell, sum_cells hl (hfacet _ (List.get_mem faces j)), coordinates,
    Fintype.linearCombination_apply]
  rfl

theorem rowSpan_incidence (faces lower : List Simplex) :
    rowSpan faces.length ((incidence faces lower).map fun row => row.map parity) =
      Submodule.span (ZMod 2) (Set.range (incidenceMatrix faces lower).row) := by
  have hrow : ∀ i : Fin lower.length,
      vec faces.length (((faces.map fun s => (Simplex.facets s).map Simplex.key).map
        fun keys => keys.count (Simplex.key (lower.get i)) % 2).map parity) =
      (incidenceMatrix faces lower).row i := by
    intro i
    ext j
    simp [vec, Matrix.row, incidenceMatrix, bit_parity, ZMod.natCast_mod]
  apply le_antisymm
  · apply rowSpan_le
    intro row hmem
    obtain ⟨r, hr, rfl⟩ := List.mem_map.1 hmem
    obtain ⟨t, ht, rfl⟩ := List.mem_map.1 hr
    obtain ⟨i, rfl⟩ := List.get_of_mem ht
    exact Submodule.subset_span ⟨i, (hrow i).symm⟩
  · apply Submodule.span_le.2
    rintro x ⟨i, rfl⟩
    rw [← hrow i]
    apply vec_mem_rowSpan
    exact List.mem_map_of_mem (List.mem_map_of_mem (List.get_mem lower i))

theorem rank_incidence (faces lower : List Simplex) :
    rank (incidence faces lower) = (incidenceMatrix faces lower).rank := by
  have hlen : ∀ row ∈ incidence faces lower, row.length = faces.length := by
    intro row hrow
    obtain ⟨t, -, rfl⟩ := List.mem_map.1 hrow
    simp
  rw [rank_eq_finrank hlen, Matrix.rank_eq_finrank_span_row, rowSpan_incidence]

/-- The rank of the incidence matrix is the dimension of the boundaries. -/
theorem finrank_map_boundary {faces lower : List Simplex}
    (hl : lower.Pairwise fun s t => ¬ s.Perm t)
    (hfacet : ∀ s ∈ faces, ∀ t ∈ Simplex.facets s, ∃ u ∈ lower, u.Perm t) :
    Module.finrank (ZMod 2) ((LinearMap.range (coordinates faces)).map boundary) =
      rank (incidence faces lower) := by
  have hinj := coordinates_injective hl
  rw [← LinearMap.range_comp, boundary_coordinates hl hfacet, LinearMap.range_comp,
    rank_incidence, Matrix.rank]
  exact (Submodule.equivMapOfInjective _ hinj _).finrank_eq.symm

end

end SimplexScript.Homology
