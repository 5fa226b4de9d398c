import SimplexScript.Homology
import SimplexScript.Proofs.Homology.Incidence

/-!
# Betti numbers are dimensions of homology

The boundary of a chain over the faces of a complex is a chain over its faces,
and has no boundary itself. With the dimensions of chains and boundaries the
difference that defines a Betti number is that between the cycles and the
boundaries of its degree.
-/

set_option autoImplicit false

namespace SimplexScript.Homology

section Faces

variable {faces : List Simplex}

theorem mem_ofDegree {k : Int} {s : Simplex} :
    s ∈ ofDegree k faces ↔ s ∈ faces ∧ (s.length : Int) = k + 1 := by
  simp [ofDegree]

theorem Closed.apart_ofDegree (hc : Closed faces) (k : Int) :
    (ofDegree k faces).Pairwise fun s t => ¬ s.Perm t :=
  hc.apart.filter _

theorem Closed.facet_ofDegree (hc : Closed faces) {k : Int} (hk : 0 < k) :
    ∀ s ∈ ofDegree k faces, ∀ t ∈ Simplex.facets s, ∃ u ∈ ofDegree (k - 1) faces, u.Perm t := by
  intro s hs t ht
  obtain ⟨hmem, hlen⟩ := mem_ofDegree.1 hs
  have htlen : (t.length : Int) = k := by
    obtain ⟨i, hi, rfl⟩ := List.mem_map.1 ht
    rw [List.length_eraseIdx_of_lt (List.mem_range.1 hi)]
    omega
  have hne : t ≠ [] := by
    rintro rfl
    simp only [List.length_nil] at htlen
    omega
  obtain ⟨u, hu, hperm⟩ := hc.facet s hmem t ht hne
  refine ⟨u, mem_ofDegree.2 ⟨hu, ?_⟩, hperm⟩
  rw [hperm.length_eq, htlen]
  omega

theorem chains_eq_bot {k : Int} (h : ∀ s ∈ faces, (s.length : Int) ≠ k + 1) :
    chains faces k = ⊥ := by
  have hcells : cells faces k = ∅ := by
    rw [Set.eq_empty_iff_forall_notMem]
    rintro m ⟨s, hs, hlen, -⟩
    exact h s hs hlen
  rw [chains, hcells, Finsupp.supported_empty]

theorem range_differential (k : Int) : LinearMap.range (differential faces k) =
    if k ≤ 0 then ⊥ else (chains faces k).map boundary := by
  unfold differential
  split
  · exact LinearMap.range_zero
  · exact LinearMap.range_domRestrict _ _

theorem map_boundary_le (hc : Closed faces) {k : Int} (hk : 0 < k) :
    (chains faces k).map boundary ≤ chains faces (k - 1) := by
  rw [← range_coordinates, ← range_coordinates, ← LinearMap.range_comp,
    boundary_coordinates (hc.apart_ofDegree (k - 1)) (hc.facet_ofDegree hk)]
  exact LinearMap.range_comp_le_range _ _

theorem range_differential_le (hc : Closed faces) (k : Int) :
    LinearMap.range (differential faces (k + 1)) ≤
      (LinearMap.ker (differential faces k)).map (chains faces k).subtype := by
  rw [range_differential]
  split
  · exact bot_le
  next hk =>
    have hback : k + 1 - 1 = k := by omega
    have hle := map_boundary_le hc (Int.not_le.1 hk)
    rw [hback] at hle
    intro y hy
    refine ⟨⟨y, hle hy⟩, ?_, rfl⟩
    obtain ⟨x, -, rfl⟩ := hy
    unfold differential
    split
    · exact LinearMap.mem_ker.2 (LinearMap.zero_apply _)
    · exact LinearMap.mem_ker.2 (boundary_boundary x)

theorem finrank_range_differential (hc : Closed faces) {d : Int}
    (hd : ∀ s ∈ faces, (s.length : Int) ≤ d + 1) (k : Int) :
    Module.finrank (ZMod 2) (LinearMap.range (differential faces k)) = boundaryRank faces d k := by
  rw [range_differential]
  unfold boundaryRank
  by_cases hk : k ≤ 0
  · rw [if_pos hk, if_pos (Or.inl hk), finrank_bot]
  · rw [if_neg hk]
    by_cases hdk : d < k
    · have hbot : chains faces k = ⊥ := by
        apply chains_eq_bot
        intro s hs hlen
        have := hd s hs
        omega
      rw [if_pos (Or.inr hdk), hbot, Submodule.map_bot, finrank_bot]
    · rw [if_neg (by omega), ← range_coordinates]
      exact finrank_map_boundary (hc.apart_ofDegree (k - 1)) (hc.facet_ofDegree (Int.not_le.1 hk))

/-- Cycles are at least boundaries, and in every degree the three dimensions add up. -/
theorem finrank_cycles (hc : Closed faces) {d : Int}
    (hd : ∀ s ∈ faces, (s.length : Int) ≤ d + 1) (k : Int) :
    boundaryRank faces d k + Module.finrank (ZMod 2) (LinearMap.ker (differential faces k)) =
        (ofDegree k faces).length ∧
      boundaryRank faces d (k + 1) ≤
        Module.finrank (ZMod 2) (LinearMap.ker (differential faces k)) := by
  constructor
  · rw [← finrank_range_differential hc hd, ← finrank_chains hc.apart]
    exact LinearMap.finrank_range_add_finrank_ker _
  · have hinj := (chains faces k).injective_subtype
    have hle := Submodule.finrank_mono (range_differential_le hc k)
    rw [finrank_range_differential hc hd] at hle
    rwa [← (Submodule.equivMapOfInjective _ hinj _).finrank_eq] at hle

theorem Closed.length_ofDegree_eq_zero (hc : Closed faces) {d : Int}
    (hd : ∀ s ∈ faces, (s.length : Int) ≤ d + 1) {k : Int} (hk : k < 0 ∨ d < k) :
    (ofDegree k faces).length = 0 := by
  rw [List.length_eq_zero_iff, List.eq_nil_iff_forall_not_mem]
  intro s hs
  obtain ⟨hmem, hlen⟩ := mem_ofDegree.1 hs
  have hpos := List.length_pos_iff.2 (hc.ne_nil s hmem)
  have hle := hd s hmem
  omega

theorem betti_eq_cycles_sub {c : Complex} (hsimp : c.simplices = .ok faces) (hc : Closed faces)
    (hd : ∀ s ∈ faces, (s.length : Int) ≤ c.dimension + 1) (k : Int) :
    betti c k = .ok ((Module.finrank (ZMod 2) (LinearMap.ker (differential faces k)) -
      boundaryRank faces c.dimension (k + 1) : Nat) : Int) := by
  obtain ⟨hsum, hle⟩ := finrank_cycles hc hd k
  unfold betti
  split
  next h =>
    have hzero := hc.length_ofDegree_eq_zero hd h
    congr 1
    omega
  next =>
    rw [hsimp]
    show Except.ok _ = Except.ok _
    congr 1
    omega

end Faces

/-- A Betti number is the dimension of the cycles of a degree modulo its boundaries. -/
theorem betti_counts_homology (c : Complex) (hc : ∀ s ∈ c.maximal, s.length ≤ Simplex.maxVertices)
    (k : Int) :
    ∃ (faces : List Simplex) (b : Nat), c.simplices = .ok faces ∧
      faces.Pairwise (fun s t => ¬ s.Perm t) ∧
      betti c k = .ok b ∧ (∀ a : Number, a.toInt? = some k → bettiAt c a = .ok b) ∧
      Nat.card (LinearMap.ker (differential faces k)) =
        2 ^ b * Nat.card (LinearMap.range (differential faces (k + 1))) ∧
      LinearMap.range (differential faces (k + 1)) ≤
        (LinearMap.ker (differential faces k)).map (chains faces k).subtype ∧
      (k < 0 ∨ c.dimension < k → b = 0) := by
  have hsimp := exists_simplices hc
  have hclosed := closed_faces c.maximal
  have hdim := fun s => length_face_le (c := c) (t := s)
  generalize distinctBy Simplex.key (c.maximal.flatMap Simplex.subfaces) = faces at *
  obtain ⟨hsum, hle⟩ := finrank_cycles hclosed hdim k
  have hbetti := betti_eq_cycles_sub hsimp hclosed hdim k
  refine ⟨faces, _, hsimp, hclosed.apart, hbetti, ?_, ?_, range_differential_le hclosed k, ?_⟩
  · intro a ha
    rw [bettiAt, ha]
    exact hbetti
  · rw [natCard_eq_two_pow, natCard_eq_two_pow, finrank_range_differential hclosed hdim,
      ← Nat.pow_add]
    congr 1
    omega
  · intro h
    have hzero := hclosed.length_ofDegree_eq_zero hdim h
    omega

/-- A hollow triangle with an edge from a vertex to itself has two independent cycles. -/
theorem betti_counts_homology_loops :
    let c := Complex.ofSimplices [["a", "b"], ["b", "c"], ["a", "c"], ["c", "c"]] .empty
    (∀ s ∈ c.maximal, s.length ≤ Simplex.maxVertices) ∧
      ∃ faces, c.simplices = .ok faces ∧ betti c 1 = .ok 2 ∧
        Nat.card (LinearMap.ker (differential faces 1)) =
          2 ^ 2 * Nat.card (LinearMap.range (differential faces 2)) := by
  intro c
  have hc : ∀ s ∈ c.maximal, s.length ≤ Simplex.maxVertices := by decide +kernel
  have htwo : betti c 1 = .ok 2 := by rfl
  obtain ⟨faces, b, hfaces, -, hb, -, hcard, -⟩ := betti_counts_homology c hc 1
  obtain rfl : b = 2 := by
    rw [htwo, Except.ok.injEq] at hb
    omega
  exact ⟨hc, faces, hfaces, htwo, hcard⟩

end SimplexScript.Homology
