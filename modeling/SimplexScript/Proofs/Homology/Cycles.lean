import SimplexScript.Proofs.Complex.Names
import SimplexScript.Proofs.Homology.Betti

/-!
# Cycles and boundaries of a complex

The faces of a complex without the order of their vertices are the non-empty
parts of its simplices, whichever copy of a face is listed. Chains over them
hold the cycles and boundaries of every degree, and a Betti number is the
difference of their dimensions.
-/

set_option autoImplicit false

namespace SimplexScript

namespace Complex

/-- The vertices of a non-empty part of a simplex, with repetitions. -/
def HasFace (c : Complex) (m : Multiset String) : Prop :=
  m ≠ 0 ∧ ∃ s ∈ c.maximal, m ≤ (s : Multiset String)

variable {c : Complex}

theorem HasFace.mem_vertices {m : Multiset String} (h : c.HasFace m) {v : String} (hv : v ∈ m) :
    v ∈ c.vertices := by
  obtain ⟨-, s, hs, hle⟩ := h
  exact Complex.mem_vertices.2 ⟨s, hs, Multiset.mem_of_le hle hv⟩

theorem HasFace.of_pair {v w : String} (h : c.HasFace {v, w}) :
    ∃ s ∈ c.maximal, v ∈ s ∧ w ∈ s := by
  obtain ⟨-, s, hs, hle⟩ := h
  exact ⟨s, hs, Multiset.mem_of_le hle (by simp), Multiset.mem_of_le hle (by simp)⟩

theorem hasFace_singleton {v : String} (hv : v ∈ c.vertices) : c.HasFace {v} := by
  obtain ⟨s, hs, hvs⟩ := Complex.mem_vertices.1 hv
  exact ⟨by simp, s, hs, by simpa using hvs⟩

theorem hasFace_pair {v w : String} (hne : v ≠ w) {s : Simplex} (hs : s ∈ c.maximal) (hv : v ∈ s)
    (hw : w ∈ s) : c.HasFace {v, w} := by
  refine ⟨by simp, s, hs, ?_⟩
  rw [Multiset.le_iff_subset (by simpa using hne)]
  intro x hx
  rcases Multiset.mem_cons.1 hx with rfl | hx
  · exact hv
  · exact Multiset.mem_singleton.1 hx ▸ hw

end Complex

namespace Homology

def faceSet (c : Complex) (k : Int) : Set (Multiset String) :=
  {m | c.HasFace m ∧ (m.card : Int) = k + 1}

theorem cells_eq_faceSet (c : Complex) (k : Int) :
    cells (distinctBy Simplex.key (c.maximal.flatMap Simplex.subfaces)) k = faceSet c k := by
  ext m
  constructor
  · rintro ⟨t, ht, hlen, rfl⟩
    obtain ⟨hne, s, hs, hsub⟩ := mem_faces ht
    exact ⟨⟨by simpa using hne, s, hs, hsub.subperm⟩, hlen⟩
  · rintro ⟨⟨hne, s, hs, hle⟩, hcard⟩
    induction m using Quotient.inductionOn with
    | h t =>
      obtain ⟨u, hut, hus⟩ : List.Subperm t s := hle
      have hu : u ∈ Simplex.subfaces s := by
        refine Simplex.mem_subfaces.2 ⟨?_, hus⟩
        rintro rfl
        exact hne (congrArg _ (List.nil_perm.1 hut))
      -- the copy that is listed may have its vertices in another order
      obtain ⟨w, hw, hkey⟩ : ∃ w ∈ distinctBy Simplex.key (c.maximal.flatMap Simplex.subfaces),
          Simplex.key w = Simplex.key u :=
        exists_mem_distinctBy (List.mem_flatMap.2 ⟨s, hs, hu⟩)
      have hperm : w.Perm t := (Simplex.key_eq_key.1 hkey).trans hut
      exact ⟨w, hw, by rw [hperm.length_eq]; exact hcard, Multiset.coe_eq_coe.2 hperm⟩

noncomputable section

def faceChains (c : Complex) (k : Int) : Submodule (ZMod 2) Chain :=
  Finsupp.supported (ZMod 2) (ZMod 2) (faceSet c k)

/-- The chains without boundary. In degree zero every chain is one of them. -/
def cycles (c : Complex) (k : Int) : Submodule (ZMod 2) Chain :=
  if k ≤ 0 then faceChains c k else faceChains c k ⊓ LinearMap.ker boundary

def boundaries (c : Complex) (k : Int) : Submodule (ZMod 2) Chain :=
  (faceChains c (k + 1)).map boundary

theorem chains_eq_faceChains (c : Complex) (k : Int) :
    chains (distinctBy Simplex.key (c.maximal.flatMap Simplex.subfaces)) k = faceChains c k := by
  rw [chains, cells_eq_faceSet, faceChains]

instance finite_boundaries (c : Complex) (k : Int) : Module.Finite (ZMod 2) (boundaries c k) := by
  rw [boundaries, ← chains_eq_faceChains]
  infer_instance

theorem map_ker_differential (faces : List Simplex) (k : Int) :
    (LinearMap.ker (differential faces k)).map (chains faces k).subtype =
      if k ≤ 0 then chains faces k else chains faces k ⊓ LinearMap.ker boundary := by
  unfold differential
  split
  · rw [LinearMap.ker_zero, Submodule.map_top, Submodule.range_subtype]
  · rw [LinearMap.ker_domRestrict]
    exact Submodule.map_comap_subtype _ _

theorem betti_add_finrank_boundaries {c : Complex}
    (hc : ∀ s ∈ c.maximal, s.length ≤ Simplex.maxVertices) {k : Int} (hk : 0 ≤ k) :
    ∃ b : Nat, betti c k = .ok b ∧
      b + Module.finrank (ZMod 2) (boundaries c k) = Module.finrank (ZMod 2) (cycles c k) := by
  have hsimp := exists_simplices hc
  have hclosed := closed_faces c.maximal
  have hdim := fun s => length_face_le (c := c) (t := s)
  have hchains := chains_eq_faceChains c
  generalize distinctBy Simplex.key (c.maximal.flatMap Simplex.subfaces) = faces at *
  obtain ⟨-, hle⟩ := finrank_cycles hclosed hdim k
  have hb : Module.finrank (ZMod 2) (boundaries c k) = boundaryRank faces c.dimension (k + 1) := by
    rw [← finrank_range_differential hclosed hdim, range_differential, if_neg (by omega), hchains,
      boundaries]
  have hz : Module.finrank (ZMod 2) (cycles c k) =
      Module.finrank (ZMod 2) (LinearMap.ker (differential faces k)) := by
    have hinj := (chains faces k).injective_subtype
    rw [(Submodule.equivMapOfInjective _ hinj _).finrank_eq, map_ker_differential, hchains, cycles]
  refine ⟨_, betti_eq_cycles_sub hsimp hclosed hdim k, ?_⟩
  rw [hb, hz]
  omega

end

end Homology

end SimplexScript
