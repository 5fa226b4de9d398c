import Mathlib.Algebra.BigOperators.Fin
import SimplexScript.Proofs.Homology.Betti

/-!
# Boundary matrices

An entry of a boundary matrix is the parity of the number of ways to delete a
vertex of the face of its column so that the face of its row is left. Every
face that a deletion leaves has its row. So the matrices are the boundaries of
chains in coordinates, and two in succession multiply to zero.
-/

set_option autoImplicit false

namespace SimplexScript.Homology

/-- The number of positions of a simplex where deleting the vertex leaves another simplex. -/
def deletions (s t : Simplex) : Nat :=
  (List.range s.length).countP fun p => decide ((s.eraseIdx p).Perm t)

def entry (matrix : List (List Nat)) (i j : Nat) : Nat := (matrix.getD i []).getD j 0

theorem count_key_facets (s t : Simplex) :
    ((Simplex.facets s).map Simplex.key).count (Simplex.key t) = deletions s t := by
  rw [deletions, Simplex.facets, List.map_map, List.count_eq_countP, List.countP_map]
  apply List.countP_congr
  intro p _
  simp [Simplex.key_eq_key]

theorem coe_facets (s : Simplex) : (Simplex.facets s).map Multiset.ofList =
    s.map fun v => (s : Multiset String).erase v := by
  apply List.ext_getElem
  · simp [Simplex.facets]
  · intro p hp _
    have hp' : p < s.length := by simpa [Simplex.facets] using hp
    have hperm : (s[p] :: s.eraseIdx p).Perm (s[p] :: s.erase s[p]) :=
      (List.getElem_cons_eraseIdx_perm hp').trans (List.perm_cons_erase (List.getElem_mem hp'))
    simpa [Simplex.facets] using hperm.cons_inv

theorem deletions_eq_count (s t : Simplex) : deletions s t =
    (s.map fun v => (s : Multiset String).erase v).count (t : Multiset String) := by
  rw [← coe_facets, deletions, Simplex.facets, List.map_map, List.count_eq_countP, List.countP_map]
  apply List.countP_congr
  intro p _
  simp

theorem deletions_congr {s s' : Simplex} (h : s.Perm s') (t : Simplex) :
    deletions s t = deletions s' t := by
  rw [deletions_eq_count, deletions_eq_count, Multiset.coe_eq_coe.2 h]
  exact (h.map _).count_eq _

section Incidence

variable {upper faces lower : List Simplex} {i j : Nat}

theorem incidence_ordered (order : Table String Number) :
    incidence (faces.map fun s => s.ordered order) lower = incidence faces lower := by
  have hcount : ∀ s t : Simplex, deletions (s.ordered order) t = deletions s t :=
    fun s t => deletions_congr (perm_sortBy _ s) t
  simp [incidence, count_key_facets, hcount]

theorem entry_incidence (hi : i < lower.length) (hj : j < faces.length) :
    entry (incidence faces lower) i j = deletions faces[j] lower[i] % 2 := by
  simp [entry, incidence, hi, hj, count_key_facets]

theorem entry_incidence_of_row_le (hi : lower.length ≤ i) (j : Nat) :
    entry (incidence faces lower) i j = 0 := by
  simp [entry, incidence, hi]

theorem entry_incidence_of_column_le (hj : faces.length ≤ j) (i : Nat) :
    entry (incidence faces lower) i j = 0 := by
  by_cases hi : i < lower.length
  · simp [entry, incidence, hi, hj]
  · exact entry_incidence_of_row_le (Nat.le_of_not_lt hi) j

theorem incidenceMatrix_eq_entry (i : Fin lower.length) (j : Fin faces.length) :
    incidenceMatrix faces lower i j = (entry (incidence faces lower) i j : ZMod 2) := by
  rw [entry_incidence i.2 j.2, ZMod.natCast_mod, ← count_key_facets]
  rfl

/-- Coordinates are one to one, so what composes to zero on chains does so on matrices. -/
theorem incidenceMatrix_mul (hl : lower.Pairwise fun s t => ¬ s.Perm t)
    (hf : faces.Pairwise fun s t => ¬ s.Perm t)
    (hlower : ∀ s ∈ faces, ∀ t ∈ Simplex.facets s, ∃ u ∈ lower, u.Perm t)
    (hfaces : ∀ s ∈ upper, ∀ t ∈ Simplex.facets s, ∃ u ∈ faces, u.Perm t) :
    incidenceMatrix faces lower * incidenceMatrix upper faces = 0 := by
  have hcomp : coordinates lower ∘ₗ
      (incidenceMatrix faces lower * incidenceMatrix upper faces).mulVecLin = 0 := by
    rw [Matrix.mulVecLin_mul, ← LinearMap.comp_assoc, ← boundary_coordinates hl hlower,
      LinearMap.comp_assoc, ← boundary_coordinates hf hfaces]
    exact LinearMap.ext fun x => boundary_boundary _
  ext i j
  have hzero := LinearMap.congr_fun hcomp (Pi.single j 1)
  have hcolumn : (incidenceMatrix faces lower * incidenceMatrix upper faces).mulVec
      (Pi.single j 1) = 0 := coordinates_injective hl (hzero.trans (map_zero _).symm)
  rw [Matrix.mulVec_single_one] at hcolumn
  exact congrFun hcolumn i

theorem sum_entries_mod_two
    (h : incidenceMatrix faces lower * incidenceMatrix upper faces = 0) (i j : Nat) :
    (∑ p ∈ Finset.range faces.length,
      entry (incidence faces lower) i p * entry (incidence upper faces) p j) % 2 = 0 := by
  by_cases hi : i < lower.length
  · by_cases hj : j < upper.length
    · have hentry : ∑ p, incidenceMatrix faces lower ⟨i, hi⟩ p *
          incidenceMatrix upper faces p ⟨j, hj⟩ = 0 := by
        rw [← Matrix.mul_apply, h, Matrix.zero_apply]
      rw [← Nat.dvd_iff_mod_eq_zero, ← ZMod.natCast_eq_zero_iff, Finset.sum_range, Nat.cast_sum,
        ← hentry]
      apply Finset.sum_congr rfl
      intro p _
      rw [Nat.cast_mul, incidenceMatrix_eq_entry, incidenceMatrix_eq_entry]
    · simp [entry_incidence_of_column_le (Nat.le_of_not_lt hj)]
  · simp [entry_incidence_of_row_le (Nat.le_of_not_lt hi)]

/-- One row for each lower face and one column for each face, in their order. An entry counts modulo
two the deletions that lead from the face of its column to the face of its row. -/
structure IsBoundary (faces lower : List Simplex) (matrix : List (List Nat)) : Prop where
  rows : matrix.length = lower.length
  columns : ∀ row ∈ matrix, row.length = faces.length
  entries : ∀ (i : Nat) (hi : i < lower.length) (j : Nat) (hj : j < faces.length),
    entry matrix i j = deletions faces[j] lower[i] % 2
  facets : ∀ s ∈ faces, ∀ p < s.length, ∃ t ∈ lower, (s.eraseIdx p).Perm t

theorem isBoundary_incidence
    (h : ∀ s ∈ faces, ∀ t ∈ Simplex.facets s, ∃ u ∈ lower, u.Perm t) :
    IsBoundary faces lower (incidence faces lower) where
  rows := by simp [incidence]
  columns row hrow := by
    obtain ⟨t, -, rfl⟩ := List.mem_map.1 hrow
    simp
  entries i hi j hj := entry_incidence hi hj
  facets s hs p hp := by
    obtain ⟨u, hu, hperm⟩ := h s hs _ (List.mem_map.2 ⟨p, List.mem_range.2 hp, rfl⟩)
    exact ⟨u, hu, hperm.symm⟩

end Incidence

theorem boundaryMatrix_eq {c : Complex} {all : List Simplex} (h : c.simplices = .ok all)
    (k : Int) : boundaryMatrix c k = .ok (incidence (ofDegree k all) (ofDegree (k - 1) all)) := by
  rw [boundaryMatrix, h]
  rfl

/-- Boundary matrices count the deletions that lead from a face to its facets, all of which are
listed, in whatever order its vertices are taken, and two in succession compose to zero. -/
theorem boundaryMatrix_composes_to_zero (c : Complex)
    (hc : ∀ s ∈ c.maximal, s.length ≤ Simplex.maxVertices) (k : Int) (hk : 1 ≤ k) :
    ∃ (faces lower : List Simplex) (matrix next : List (List Nat)),
      degreeFaces c k = .ok faces ∧ degreeFaces c (k - 1) = .ok lower ∧
      boundaryMatrix c k = .ok matrix ∧ boundaryMatrix c (k + 1) = .ok next ∧
      IsBoundary faces lower matrix ∧
      (∀ order, incidence (faces.map fun s => s.ordered order) lower = matrix) ∧
      ∀ i j, (∑ p ∈ Finset.range faces.length, entry matrix i p * entry next p j) % 2 = 0 := by
  have hsimp := exists_simplices hc
  have hclosed := closed_faces c.maximal
  generalize distinctBy Simplex.key (c.maximal.flatMap Simplex.subfaces) = all at *
  have hlower := hclosed.facet_ofDegree (k := k) (by omega)
  have hfaces := hclosed.facet_ofDegree (k := k + 1) (by omega)
  have hnext := boundaryMatrix_eq hsimp (k + 1)
  rw [show k + 1 - 1 = k by omega] at hfaces hnext
  have hzero := incidenceMatrix_mul (hclosed.apart_ofDegree (k - 1)) (hclosed.apart_ofDegree k)
    hlower hfaces
  exact ⟨_, _, _, _, degreeFaces_eq hsimp k, degreeFaces_eq hsimp (k - 1),
    boundaryMatrix_eq hsimp k, hnext, isBoundary_incidence hlower, incidence_ordered,
    sum_entries_mod_two hzero⟩

/-- Two triangles that share an edge, listed in another order in the second, and an edge from a
vertex to itself, both ends of which cancel. -/
theorem boundaryMatrix_composes_to_zero_shared :
    let c := Complex.ofSimplices [["a", "b", "c"], ["c", "b", "d"], ["d", "d"]] .empty
    let edges := [["a", "b"], ["a", "c"], ["b", "c"], ["c", "d"], ["b", "d"], ["d", "d"]]
    let matrix := [[1, 1, 0, 0, 0, 0], [1, 0, 1, 0, 1, 0], [0, 1, 1, 1, 0, 0], [0, 0, 0, 1, 1, 0]]
    let next := [[1, 0], [1, 0], [1, 1], [0, 1], [0, 1], [0, 0]]
    (∀ s ∈ c.maximal, s.length ≤ Simplex.maxVertices) ∧
      boundaryMatrix c 1 = .ok matrix ∧ boundaryMatrix c 2 = .ok next ∧
      IsBoundary edges [["a"], ["b"], ["c"], ["d"]] matrix ∧
      ∀ i j, (∑ p ∈ Finset.range edges.length, entry matrix i p * entry next p j) % 2 = 0 := by
  intro c edges matrix next
  have hc : ∀ s ∈ c.maximal, s.length ≤ Simplex.maxVertices := by decide +kernel
  have hedges : degreeFaces c 1 = .ok edges := by rfl
  have hpoints : degreeFaces c 0 = .ok [["a"], ["b"], ["c"], ["d"]] := by rfl
  have hmatrix : boundaryMatrix c 1 = .ok matrix := by rfl
  have hnext : boundaryMatrix c 2 = .ok next := by rfl
  obtain ⟨faces, lower, m, n, hf, hl, hm, hn, hboundary, -, hzero⟩ :=
    boundaryMatrix_composes_to_zero c hc 1 (Int.le_refl 1)
  obtain rfl := Except.ok.inj (hedges.symm.trans hf)
  obtain rfl := Except.ok.inj (hpoints.symm.trans hl)
  obtain rfl := Except.ok.inj (hmatrix.symm.trans hm)
  obtain rfl := Except.ok.inj (hnext.symm.trans hn)
  exact ⟨hc, hmatrix, hnext, hboundary, hzero⟩

end SimplexScript.Homology
