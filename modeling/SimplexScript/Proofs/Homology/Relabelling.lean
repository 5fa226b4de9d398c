import SimplexScript.Proofs.Homology.Euler

/-!
# Relabelled complexes

Another name for every vertex carries chains to chains and boundaries to
boundaries, and loses nothing where different vertices get different names.
So two complexes whose faces agree up to the names of vertices have the same
dimension, counts and Betti numbers, however their simplices are listed and
in whatever order, and whether or not the listed simplices are maximal.
-/

set_option autoImplicit false

namespace SimplexScript

namespace Complex

variable {c : Complex} {m n : Multiset String} {f : String → String}

theorem HasFace.of_le (h : c.HasFace n) (hm : m ≠ 0) (hle : m ≤ n) : c.HasFace m := by
  obtain ⟨-, s, hs, hns⟩ := h
  exact ⟨hm, s, hs, hle.trans hns⟩

theorem ne_nil_of_le {s : Simplex} (hm : m ≠ 0) (hle : m ≤ (s : Multiset String)) : s ≠ [] := by
  intro hnil
  rw [hnil] at hle
  exact hm (Multiset.le_zero.1 hle)

theorem map_injOn_faces (hf : Set.InjOn f {v | v ∈ c.vertices}) :
    Set.InjOn (Multiset.map f) {m | c.HasFace m} := by
  -- the names can be taken back on the vertices, and a face has no others
  have hback : ∀ m, c.HasFace m →
      (m.map f).map (Function.invFunOn f {v | v ∈ c.vertices}) = m := by
    intro m hm
    rw [Multiset.map_map]
    conv_rhs => rw [← Multiset.map_id m]
    apply Multiset.map_congr rfl
    intro v hv
    exact hf.leftInvOn_invFunOn (hm.mem_vertices hv)
  intro m hm n hn hmn
  rw [← hback m hm, ← hback n hn, hmn]

theorem exists_le_map {s : Multiset String} (h : n ≤ s.map f) : ∃ m ≤ s, m.map f = n := by
  induction s using Quotient.inductionOn with
  | h s =>
    induction n using Quotient.inductionOn with
    | h n =>
      obtain ⟨l, hl, hsub⟩ : List.Subperm n (s.map f) := h
      obtain ⟨t, ht, rfl⟩ := List.sublist_map_iff.1 hsub
      exact ⟨t, ht.subperm, Multiset.coe_eq_coe.2 hl⟩

end Complex

namespace Homology

noncomputable section

def relabel (f : String → String) : Chain →ₗ[ZMod 2] Chain :=
  Finsupp.lmapDomain (ZMod 2) (ZMod 2) (Multiset.map f)

theorem relabel_single (f : String → String) (m : Multiset String) :
    relabel f (Finsupp.single m 1) = Finsupp.single (m.map f) 1 := by
  rw [relabel, Finsupp.lmapDomain_apply, Finsupp.mapDomain_single]

theorem relabel_facetSum (f : String → String) (m : Multiset String) :
    relabel f (facetSum m) = facetSum (m.map f) := by
  rw [facetSum, facetSum, map_multiset_sum, Multiset.map_map, Multiset.map_map]
  congr 1
  apply Multiset.map_congr rfl
  intro v hv
  rw [Function.comp_apply, Function.comp_apply, relabel_single, Multiset.map_erase_of_mem f m hv]

theorem boundary_relabel (f : String → String) :
    boundary ∘ₗ relabel f = relabel f ∘ₗ boundary := by
  apply chain_hom_ext
  intro m
  rw [LinearMap.comp_apply, LinearMap.comp_apply, relabel_single, boundary_single, boundary_single,
    relabel_facetSum]

section Faces

variable {c : Complex} {f : String → String}

def faceImage (f : String → String) (c : Complex) (k : Int) : Set (Multiset String) :=
  Multiset.map f '' faceSet c k

theorem boundaries_le (c : Complex) {k : Int} (hk : 0 ≤ k) : boundaries c k ≤ faceChains c k := by
  have hle := map_boundary_le (closed_faces c.maximal) (k := k + 1) (by omega)
  rwa [Int.add_sub_cancel, chains_eq_faceChains, chains_eq_faceChains] at hle

theorem map_relabel_faceChains (f : String → String) (c : Complex) (k : Int) :
    (faceChains c k).map (relabel f) =
      Finsupp.supported (ZMod 2) (ZMod 2) (faceImage f c k) :=
  Finsupp.lmapDomain_supported _ _ _ _

theorem map_relabel_boundaries (f : String → String) (c : Complex) (k : Int) :
    (boundaries c k).map (relabel f) = ((faceChains c (k + 1)).map (relabel f)).map boundary := by
  rw [boundaries, ← Submodule.map_comp, ← boundary_relabel, Submodule.map_comp]

theorem ncard_faceImage (hf : Set.InjOn f {v | v ∈ c.vertices}) (k : Int) :
    (faceImage f c k).ncard = faceCount c k :=
  ((Complex.map_injOn_faces hf).mono fun _ hm => hm.1).ncard_image

/-- Relabelled boundaries are as many: the names of different vertices differ. -/
theorem finrank_relabel_boundaries (hf : Set.InjOn f {v | v ∈ c.vertices}) {k : Int} (hk : 0 ≤ k) :
    Module.finrank (ZMod 2) ((boundaries c k).map (relabel f)) =
      Module.finrank (ZMod 2) (boundaries c k) := by
  have hfaces : Set.InjOn (Multiset.map f) (faceSet c k) :=
    (Complex.map_injOn_faces hf).mono fun _ hm => hm.1
  have hinj : Function.Injective ((relabel f).domRestrict (boundaries c k)) := by
    intro x y hxy
    exact Subtype.ext (Finsupp.mapDomain_injOn (faceSet c k) hfaces (boundaries_le c hk x.2)
      (boundaries_le c hk y.2) hxy)
  rw [← LinearMap.range_domRestrict, LinearMap.finrank_range_of_inj hinj]

end Faces

end

/-- The faces of the second complex are those of the first under other names. -/
structure Relabels (f : String → String) (c d : Complex) : Prop where
  injOn : Set.InjOn f {v | v ∈ c.vertices}
  image : ∀ m, c.HasFace m → d.HasFace (m.map f)
  source : ∀ n, d.HasFace n → ∃ m, c.HasFace m ∧ m.map f = n

namespace Relabels

variable {f : String → String} {c d : Complex}

theorem of_maximal (hf : Set.InjOn f {v | v ∈ c.vertices})
    (hsource : ∀ t ∈ d.maximal, t ≠ [] → ∃ m, c.HasFace m ∧ m.map f = t)
    (himage : ∀ s ∈ c.maximal, s ≠ [] → d.HasFace (s.map f : List String)) : Relabels f c d where
  injOn := hf
  image m hm := by
    obtain ⟨hne, s, hs, hle⟩ := hm
    have hface := himage s hs (Complex.ne_nil_of_le hne hle)
    exact hface.of_le (by simpa using hne) (Multiset.map_le_map hle)
  source n hn := by
    obtain ⟨hne, t, ht, hle⟩ := hn
    -- a part of a relabelled face is a relabelled part of it
    obtain ⟨s, hs, hst⟩ := hsource t ht (Complex.ne_nil_of_le hne hle)
    obtain ⟨m, hm, rfl⟩ := Complex.exists_le_map (hst ▸ hle)
    exact ⟨m, hs.of_le (by simpa using hne) hm, rfl⟩

variable (h : Relabels f c d)

include h

theorem faceSet_eq (k : Int) : faceSet d k = faceImage f c k := by
  ext n
  constructor
  · rintro ⟨hn, hcard⟩
    obtain ⟨m, hm, rfl⟩ := h.source n hn
    exact ⟨m, ⟨hm, by rwa [Multiset.card_map] at hcard⟩, rfl⟩
  · rintro ⟨m, ⟨hm, hcard⟩, rfl⟩
    exact ⟨h.image m hm, by rwa [Multiset.card_map]⟩

theorem setOf_hasFace : {n | d.HasFace n} = Multiset.map f '' {m | c.HasFace m} := by
  ext n
  constructor
  · exact h.source n
  · rintro ⟨m, hm, rfl⟩
    exact h.image m hm

theorem dimension_eq : c.dimension = d.dimension := by
  apply le_antisymm
  · rw [Complex.dimension_le_iff d.neg_one_le_dimension]
    intro m hm
    rw [← Multiset.card_map f m]
    exact (h.image m hm).card_le
  · rw [Complex.dimension_le_iff c.neg_one_le_dimension]
    intro n hn
    obtain ⟨m, hm, rfl⟩ := h.source n hn
    rw [Multiset.card_map]
    exact hm.card_le

theorem faceCount_eq (k : Int) : faceCount c k = faceCount d k := by
  rw [← ncard_faceImage h.injOn, ← h.faceSet_eq, faceCount]

theorem vertexCount_eq : c.vertexCount = d.vertexCount := by
  rw [← faceCount_zero, ← faceCount_zero, h.faceCount_eq]

theorem ncard_faces_eq : {m | c.HasFace m}.ncard = {n | d.HasFace n}.ncard := by
  rw [h.setOf_hasFace, (Complex.map_injOn_faces h.injOn).ncard_image]

theorem boundaries_eq (k : Int) : boundaries d k = (boundaries c k).map (relabel f) := by
  rw [map_relabel_boundaries, map_relabel_faceChains, ← h.faceSet_eq]
  rfl

theorem boundaryDim_eq (k : Int) : boundaryDim c k = boundaryDim d k := by
  by_cases hk : k ≤ 0
  · rw [boundaryDim_eq_zero (Or.inl hk), boundaryDim_eq_zero (Or.inl hk)]
  · have hpos : 0 < k := Int.not_le.1 hk
    rw [boundaryDim_eq_finrank c hpos, boundaryDim_eq_finrank d hpos, h.boundaries_eq,
      finrank_relabel_boundaries h.injOn (by omega)]

theorem bettiCount_eq (k : Int) : bettiCount c k = bettiCount d k := by
  rw [bettiCount, bettiCount, h.faceCount_eq, h.boundaryDim_eq, h.boundaryDim_eq]

end Relabels

/-- What is observed of a complex does not depend on its presentation: if the simplices listed for
either complex are, up to the names and the order of vertices, faces of the other, then both have the
same dimension, the same numbers of vertices and simplices, and the same Euler characteristic and
Betti numbers. -/
theorem observations_of_presentation (c d : Complex)
    (hc : ∀ s ∈ c.maximal, s.length ≤ Simplex.maxVertices)
    (hd : ∀ t ∈ d.maximal, t.length ≤ Simplex.maxVertices) :
    ∃ cs ds, c.simplices = .ok cs ∧ d.simplices = .ok ds ∧
      ∀ f : String → String, Set.InjOn f {v | v ∈ c.vertices} →
        (∀ t ∈ d.maximal, t ≠ [] → ∃ s ∈ cs, t.Perm (s.map f)) →
        (∀ s ∈ c.maximal, s ≠ [] → ∃ t ∈ ds, (s.map f).Perm t) →
        c.dimension = d.dimension ∧ c.vertexCount = d.vertexCount ∧
        (∃ n, c.simplexCount = .ok n ∧ d.simplexCount = .ok n) ∧
        (∃ chi, eulerCharacteristic c = .ok chi ∧ eulerCharacteristic d = .ok chi) ∧
        ∃ numbers, bettiNumbers c = .ok numbers ∧ bettiNumbers d = .ok numbers := by
  refine ⟨_, _, exists_simplices hc, exists_simplices hd, ?_⟩
  intro f hf hsource himage
  have h : Relabels f c d := by
    apply Relabels.of_maximal hf
    · intro t ht hne
      obtain ⟨s, hs, hperm⟩ := hsource t ht hne
      exact ⟨s, hasFace_iff_listed.2 ⟨s, hs, rfl⟩, (Multiset.coe_eq_coe.2 hperm).symm⟩
    · intro s hs hne
      obtain ⟨t, ht, hperm⟩ := himage s hs hne
      exact hasFace_iff_listed.2 ⟨t, ht, (Multiset.coe_eq_coe.2 hperm).symm⟩
  refine ⟨h.dimension_eq, h.vertexCount_eq, ⟨_, simplexCount_eq hc, ?_⟩,
    ⟨_, eulerCharacteristic_eq_faceCount hc, ?_⟩, ⟨_, bettiNumbers_eq hc, ?_⟩⟩
  · rw [simplexCount_eq hd, h.ncard_faces_eq]
  · rw [eulerCharacteristic_eq_faceCount hd, h.dimension_eq]
    simp only [h.faceCount_eq]
  · rw [bettiNumbers_eq hd, h.dimension_eq]
    simp only [h.bettiCount_eq]

/-- A triangle with an edge at one corner, which ends in an edge from a vertex to itself, and the same
under other names, listed from the end, with an edge and a corner of the triangle apart and a simplex
without vertices. -/
theorem observations_of_presentation_listed :
    let c := Complex.ofSimplices [["a", "b", "c"], ["c", "d"], ["d", "d"]] .empty
    let d := Complex.ofSimplices
      [["a", "a"], ["x", "y"], [], ["a", "z"], ["z", "y", "x"], ["z"]] .empty
    let f := fun v => if v = "a" then "x" else if v = "b" then "y" else
      if v = "c" then "z" else "a"
    Set.InjOn f {v | v ∈ c.vertices} ∧ d.dimension = 2 ∧ c.dimension = d.dimension ∧
      c.vertexCount = d.vertexCount ∧ (∃ n, c.simplexCount = .ok n ∧ d.simplexCount = .ok n) ∧
      (∃ chi, eulerCharacteristic c = .ok chi ∧ eulerCharacteristic d = .ok chi) ∧
      ∃ numbers, bettiNumbers c = .ok numbers ∧ bettiNumbers d = .ok numbers := by
  intro c d f
  have hc : ∀ s ∈ c.maximal, s.length ≤ Simplex.maxVertices := by decide +kernel
  have hd : ∀ t ∈ d.maximal, t.length ≤ Simplex.maxVertices := by decide +kernel
  have hinj : ∀ v ∈ c.vertices, ∀ w ∈ c.vertices, f v = f w → v = w := by decide +kernel
  have hf : Set.InjOn f {v | v ∈ c.vertices} := fun v hv w hw => hinj v hv w hw
  have hdim : d.dimension = 2 := by decide +kernel
  have hfaces : c.simplices = .ok [["a"], ["b"], ["a", "b"], ["c"], ["a", "c"], ["b", "c"],
    ["a", "b", "c"], ["d"], ["c", "d"], ["d", "d"]] := by rfl
  have hfaces' : d.simplices = .ok [["a"], ["a", "a"], ["x"], ["y"], ["x", "y"], ["z"], ["a", "z"],
    ["z", "y"], ["z", "x"], ["z", "y", "x"]] := by rfl
  obtain ⟨cs, ds, hcs, hds, hobserved⟩ := observations_of_presentation c d hc hd
  obtain rfl := Except.ok.inj (hfaces.symm.trans hcs)
  obtain rfl := Except.ok.inj (hfaces'.symm.trans hds)
  exact ⟨hf, hdim, hobserved f hf (by decide +kernel) (by decide +kernel)⟩

end Homology

end SimplexScript
