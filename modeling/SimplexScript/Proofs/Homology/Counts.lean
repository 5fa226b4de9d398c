import Mathlib.Data.Set.Card
import SimplexScript.Proofs.Homology.Components

/-!
# Counting faces

The faces of a complex without the order of their vertices are a finite set.
Its greatest degree is the dimension, its size is the number of simplices, and
its points are the vertices. The numbers of faces and the dimensions of the
boundaries in neighbouring degrees determine every Betti number, so what is
observed of a complex depends on its set of faces only.
-/

set_option autoImplicit false

namespace SimplexScript

namespace Complex

variable {c : Complex} {m : Multiset String}

theorem HasFace.card_le (h : c.HasFace m) : (m.card : Int) ≤ c.dimension + 1 := by
  obtain ⟨-, s, hs, hle⟩ := h
  have hcard : m.card ≤ s.length := Multiset.card_le_card hle
  have hdim := le_dimension hs
  omega

theorem exists_hasFace (h : 0 ≤ c.dimension) :
    ∃ m, c.HasFace m ∧ (m.card : Int) = c.dimension + 1 := by
  have hattained : c.dimension = -1 ∨ ∃ s ∈ c.maximal, c.dimension = (s.length : Int) - 1 :=
    foldl_raise_attained c.maximal (-1)
  rcases hattained with hnone | ⟨s, hs, hdim⟩
  · omega
  · have hne : (s : Multiset String) ≠ 0 := by
      intro hzero
      rw [(Multiset.coe_eq_zero s).1 hzero, List.length_nil] at hdim
      omega
    exact ⟨s, ⟨hne, s, hs, le_rfl⟩, by rw [Multiset.coe_card]; omega⟩

/-- The dimension is the least bound of the degrees of faces. -/
theorem dimension_le_iff {d : Int} (hd : -1 ≤ d) :
    c.dimension ≤ d ↔ ∀ m, c.HasFace m → (m.card : Int) ≤ d + 1 := by
  constructor
  · intro h m hm
    have hcard := hm.card_le
    omega
  · intro h
    by_cases hneg : c.dimension < 0
    · omega
    · obtain ⟨m, hm, hcard⟩ := exists_hasFace (Int.not_lt.1 hneg)
      have hle := h m hm
      omega

end Complex

namespace Homology

theorem hasFace_iff_listed {c : Complex} {m : Multiset String} :
    c.HasFace m ↔ ∃ s ∈ distinctBy Simplex.key (c.maximal.flatMap Simplex.subfaces),
      (s : Multiset String) = m := by
  constructor
  · intro h
    have hm : m ∈ faceSet c (m.card - 1) := ⟨h, by omega⟩
    rw [← cells_eq_faceSet] at hm
    obtain ⟨s, hs, -, rfl⟩ := hm
    exact ⟨s, hs, rfl⟩
  · rintro ⟨s, hs, rfl⟩
    have hm : (s : Multiset String) ∈ faceSet c (s.length - 1) := by
      rw [← cells_eq_faceSet]
      exact ⟨s, hs, by omega, rfl⟩
    exact hm.1

theorem ncard_listed {ss : List Simplex} (h : ss.Pairwise fun s t => ¬ s.Perm t) :
    {m : Multiset String | ∃ s ∈ ss, (s : Multiset String) = m}.ncard = ss.length := by
  -- as multisets the simplices are still apart, so the list is one of distinct members
  have hset : {m : Multiset String | ∃ s ∈ ss, (s : Multiset String) = m} =
      ((ss.map Multiset.ofList).toFinset : Set (Multiset String)) := by
    ext m
    simp
  have hnodup : (ss.map Multiset.ofList).Nodup := by
    rw [List.Nodup, List.pairwise_map]
    exact h.imp fun hst he => hst (Multiset.coe_eq_coe.1 he)
  rw [hset, Set.ncard_coe_finset, List.toFinset_card_of_nodup hnodup, List.length_map]

theorem finite_faces (c : Complex) : {m | c.HasFace m}.Finite := by
  simp only [hasFace_iff_listed]
  exact (List.finite_toSet _).image _

theorem finite_faceSet (c : Complex) (k : Int) : (faceSet c k).Finite :=
  (finite_faces c).subset fun _ hm => hm.1

theorem simplexCount_eq {c : Complex} (hc : ∀ s ∈ c.maximal, s.length ≤ Simplex.maxVertices) :
    c.simplexCount = .ok {m | c.HasFace m}.ncard := by
  have hcount := ncard_listed (closed_faces c.maximal).apart
  simp only [← hasFace_iff_listed] at hcount
  rw [hcount, Complex.simplexCount, exists_simplices hc]
  rfl

noncomputable def faceCount (c : Complex) (k : Int) : Nat := (faceSet c k).ncard

theorem length_ofDegree (c : Complex) (k : Int) :
    (ofDegree k (distinctBy Simplex.key (c.maximal.flatMap Simplex.subfaces))).length =
      faceCount c k := by
  rw [← ncard_listed ((closed_faces c.maximal).apart_ofDegree k), faceCount, ← cells_eq_faceSet]
  simp only [cells, mem_ofDegree, and_assoc]

theorem faceCount_zero (c : Complex) : faceCount c 0 = c.vertexCount := by
  have hinj : Function.Injective fun v : c.Vertex => ({v.1} : Multiset String) :=
    fun _ _ h => Subtype.ext (Multiset.singleton_inj.1 h)
  rw [faceCount, faceSet_zero, Set.ncard_range_of_injective hinj]
  exact (Nat.subtype_card c.vertices.toFinset (by simp)).trans
    (List.toFinset_card_of_nodup (nodup_distinct _))

/-- The rank of the boundary in degree `k` over the faces of a complex. -/
def boundaryDim (c : Complex) (k : Int) : Nat :=
  boundaryRank (distinctBy Simplex.key (c.maximal.flatMap Simplex.subfaces)) c.dimension k

theorem boundaryDim_eq_zero {c : Complex} {k : Int} (hk : k ≤ 0 ∨ c.dimension < k) :
    boundaryDim c k = 0 :=
  if_pos hk

theorem boundaryDim_eq_finrank (c : Complex) {k : Int} (hk : 0 < k) :
    boundaryDim c k = Module.finrank (ZMod 2) (boundaries c (k - 1)) := by
  rw [boundaryDim, ← finrank_range_differential (closed_faces c.maximal) (fun _ => length_face_le),
    range_differential, if_neg (Int.not_le.2 hk), chains_eq_faceChains, boundaries,
    Int.sub_add_cancel]

/-- Chains without boundary and boundaries of one degree share out its faces, and what bounds in a
degree is among those without boundary. -/
theorem finrank_ker_differential (c : Complex) (k : Int) :
    boundaryDim c k + Module.finrank (ZMod 2) (LinearMap.ker (differential
        (distinctBy Simplex.key (c.maximal.flatMap Simplex.subfaces)) k)) = faceCount c k ∧
      boundaryDim c (k + 1) ≤ Module.finrank (ZMod 2) (LinearMap.ker (differential
        (distinctBy Simplex.key (c.maximal.flatMap Simplex.subfaces)) k)) := by
  rw [← length_ofDegree]
  exact finrank_cycles (closed_faces c.maximal) (fun _ => length_face_le) k

/-- The faces of a degree that are left by its own boundaries and by those of the degree above. -/
noncomputable def bettiCount (c : Complex) (k : Int) : Nat :=
  faceCount c k - boundaryDim c k - boundaryDim c (k + 1)

theorem bettiCount_add (c : Complex) (k : Int) :
    bettiCount c k + boundaryDim c k + boundaryDim c (k + 1) = faceCount c k := by
  obtain ⟨hsum, hle⟩ := finrank_ker_differential c k
  rw [bettiCount]
  omega

section Bounded

variable {c : Complex} (hc : ∀ s ∈ c.maximal, s.length ≤ Simplex.maxVertices)

include hc

theorem betti_eq (k : Int) : betti c k = .ok (bettiCount c k : Int) := by
  obtain ⟨hsum, hle⟩ := finrank_ker_differential c k
  have hbetti := betti_eq_cycles_sub (exists_simplices hc) (closed_faces c.maximal)
    (fun _ => length_face_le) k
  rw [← boundaryDim] at hbetti
  rw [hbetti, bettiCount]
  congr 2
  omega

theorem bettiNumbers_eq : bettiNumbers c =
    .ok ((List.range (c.dimension + 1).toNat).map fun k => (k, (bettiCount c k : Int))) := by
  unfold bettiNumbers
  simp only [betti_eq hc]
  exact List.mapM_pure

end Bounded

end Homology

end SimplexScript
