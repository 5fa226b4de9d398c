import SimplexScript.Proofs.Complex.DisjointGluing
import SimplexScript.Proofs.Homology.Relabelling

/-!
# Gluings at a point

Canonical complexes without a common name that are glued at one point at most
share no face of positive degree and at most one vertex. A boundary is never a
single vertex, so the boundaries of the two complexes stay independent and add
up in every degree, as their faces do except for the vertex they share. Hence
Betti numbers add up, less one in degree zero for the components that meet.
-/

set_option autoImplicit false

namespace SimplexScript

namespace Complex

variable {k l r : Complex} {m : Mapping}

theorem IsGluing.hasFace_iff (h : IsGluing k l m r) {n : Multiset String} :
    r.HasFace n ↔ ∃ a, (k.HasFace a ∨ l.HasFace a) ∧ a.map r.partition.root = n := by
  have hside : ∀ a, k.HasFace a ∨ l.HasFace a ↔
      a ≠ 0 ∧ ∃ s ∈ k.maximal ++ l.maximal, a ≤ (s : Multiset String) := by
    intro a
    simp only [HasFace, List.mem_append, or_and_right, exists_or, and_or_left]
  simp only [hside]
  constructor
  · rintro ⟨hne, t, ht, hle⟩
    obtain ⟨s, hs, hperm⟩ := h.source t ht
    rw [Multiset.coe_eq_coe.2 hperm, ← Multiset.map_coe] at hle
    obtain ⟨a, ha, rfl⟩ := exists_le_map hle
    exact ⟨a, ⟨by simpa using hne, s, hs, ha⟩, rfl⟩
  · rintro ⟨a, ⟨hne, s, hs, hle⟩, rfl⟩
    obtain ⟨t, ht, hperm⟩ := h.image s hs
    refine ⟨by simpa using hne, t, ht, ?_⟩
    rw [Multiset.coe_eq_coe.2 hperm, ← Multiset.map_coe]
    exact Multiset.map_le_map hle

theorem HasFace.nodup (hc : k.Canonical) {a : Multiset String} (ha : k.HasFace a) : a.Nodup := by
  obtain ⟨-, s, hs, hle⟩ := ha
  exact Multiset.nodup_of_le hle (Multiset.coe_nodup.2 (hc.simplex_nodup s hs))

/-- A gluing of canonical complexes without a common name that pairs at most one class of each. -/
structure IsPointGluing (k l : Complex) (m : Mapping) (r : Complex) : Prop
    extends IsGluing k l m r where
  sides : Apart k l
  resolves : Resolves k l m
  oneToOne : OneToOne (classPairs k l m)
  single : ∀ e ∈ classPairs k l m, ∀ d ∈ classPairs k l m, e = d

namespace IsPointGluing

variable (h : IsPointGluing k l m r)

include h

theorem injOn_left : Set.InjOn r.partition.root {v | v ∈ k.vertices} :=
  h.sides.root_injOn_left h.resolves h.oneToOne h.toIsGluing

theorem injOn_right : Set.InjOn r.partition.root {v | v ∈ l.vertices} :=
  h.sides.root_injOn_right h.resolves h.oneToOne h.toIsGluing

theorem exists_pair {a b : Multiset String} (ha : k.HasFace a) (hb : l.HasFace b)
    (hab : a.map r.partition.root = b.map r.partition.root) {v : String} (hv : v ∈ a) :
    ∃ w, (v, w) ∈ classPairs k l m := by
  have hmem : r.partition.root v ∈ b.map r.partition.root := hab ▸ Multiset.mem_map_of_mem _ hv
  obtain ⟨w, hw, hroot⟩ := Multiset.mem_map.1 hmem
  have hglued := (h.root_eq_iff v w).1 hroot.symm
  exact ⟨w, (h.sides.glued_across h.resolves h.oneToOne (ha.mem_vertices hv)
    (hb.mem_vertices hw)).1 hglued⟩

theorem common_face {a b : Multiset String} (ha : k.HasFace a) (hb : l.HasFace b)
    (hab : a.map r.partition.root = b.map r.partition.root) :
    ∃ e ∈ classPairs k l m, a = {e.1} := by
  obtain ⟨v, hv⟩ := Multiset.exists_mem_of_ne_zero ha.1
  obtain ⟨w, hvw⟩ := h.exists_pair ha hb hab hv
  refine ⟨(v, w), hvw, ?_⟩
  rw [(ha.nodup h.sides.left).ext (Multiset.nodup_singleton v)]
  intro x
  rw [Multiset.mem_singleton]
  constructor
  · intro hx
    obtain ⟨y, hxy⟩ := h.exists_pair ha hb hab hx
    exact congrArg Prod.fst (h.single _ hxy _ hvw)
  · intro hx
    rwa [hx]

end IsPointGluing

end Complex

namespace Homology

open SimplexScript.Complex

theorem boundary_of_relabelled {c : Complex} {f : String → String} {j : Int} {x : Chain}
    (hx : x ∈ (boundaries c j).map (relabel f)) : boundary x = 0 := by
  rw [map_relabel_boundaries] at hx
  obtain ⟨y, -, rfl⟩ := hx
  exact boundary_boundary y

theorem relabelled_boundaries_le (f : String → String) (c : Complex) {j : Int} (hj : 0 ≤ j) :
    (boundaries c j).map (relabel f) ≤
      Finsupp.supported (ZMod 2) (ZMod 2) (faceImage f c j) := by
  rw [← map_relabel_faceChains]
  exact Submodule.map_mono (boundaries_le c hj)

theorem eq_zero_of_point {S : Set (Multiset String)} (hS : S.Subsingleton)
    (hpoint : ∀ n ∈ S, ∃ v, n = {v}) {x : Chain}
    (hx : x ∈ Finsupp.supported (ZMod 2) (ZMod 2) S) (hzero : boundary x = 0) : x = 0 := by
  rcases hS.eq_empty_or_singleton with rfl | ⟨n, rfl⟩
  · rwa [Finsupp.supported_empty, Submodule.mem_bot] at hx
  · obtain ⟨v, rfl⟩ := hpoint n rfl
    rw [Finsupp.mem_supported, ← Finset.coe_singleton, Finset.coe_subset] at hx
    -- the chain is a multiple of a vertex, and the boundary keeps the factor
    have hsingle : x = x {v} • Finsupp.single {v} 1 := by
      rw [Finsupp.smul_single_one]
      exact Finsupp.support_subset_singleton.1 hx
    have hfacet : facetSum {v} = Finsupp.single 0 1 := by simp [facetSum]
    rw [hsingle, map_smul, boundary_single, hfacet, Finsupp.smul_single_one,
      Finsupp.single_eq_zero] at hzero
    rw [hsingle, hzero, zero_smul]

section Gluing

variable {k l r : Complex} {m : Mapping} (h : IsGluing k l m r)

include h

theorem faceSet_gluing (j : Int) :
    faceSet r j = faceImage r.partition.root k j ∪ faceImage r.partition.root l j := by
  ext n
  rw [faceImage, faceImage, ← Set.image_union]
  constructor
  · rintro ⟨hn, hcard⟩
    obtain ⟨a, ha, rfl⟩ := h.hasFace_iff.1 hn
    rw [Multiset.card_map] at hcard
    exact ⟨a, ha.imp (⟨·, hcard⟩) (⟨·, hcard⟩), rfl⟩
  · rintro ⟨a, ha | ha, rfl⟩
    · exact ⟨h.hasFace_iff.2 ⟨a, Or.inl ha.1, rfl⟩, by rw [Multiset.card_map]; exact ha.2⟩
    · exact ⟨h.hasFace_iff.2 ⟨a, Or.inr ha.1, rfl⟩, by rw [Multiset.card_map]; exact ha.2⟩

theorem boundaries_gluing (j : Int) :
    boundaries r j = (boundaries k j).map (relabel r.partition.root) ⊔
      (boundaries l j).map (relabel r.partition.root) := by
  rw [map_relabel_boundaries, map_relabel_boundaries, map_relabel_faceChains,
    map_relabel_faceChains, ← Submodule.map_sup, ← Finsupp.supported_union, ← faceSet_gluing h]
  rfl

end Gluing

section PointGluing

variable {k l r : Complex} {m : Mapping} (h : IsPointGluing k l m r)

include h

theorem mem_common {j : Int} {n : Multiset String}
    (hn : n ∈ faceImage r.partition.root k j ∩ faceImage r.partition.root l j) :
    ∃ e ∈ classPairs k l m, n = {r.partition.root e.1} := by
  obtain ⟨⟨a, ha, rfl⟩, b, hb, hba⟩ := hn
  obtain ⟨e, he, rfl⟩ := h.common_face ha.1 hb.1 hba.symm
  exact ⟨e, he, rfl⟩

theorem common_subsingleton (j : Int) :
    (faceImage r.partition.root k j ∩ faceImage r.partition.root l j).Subsingleton := by
  intro n hn n' hn'
  obtain ⟨e, he, rfl⟩ := mem_common h hn
  obtain ⟨d, hd, rfl⟩ := mem_common h hn'
  rw [h.single e he d hd]

/-- What is a boundary in both complexes is a chain over the vertex they share, hence zero. -/
theorem boundaries_disjoint {j : Int} (hj : 0 ≤ j) :
    (boundaries k j).map (relabel r.partition.root) ⊓
      (boundaries l j).map (relabel r.partition.root) = ⊥ := by
  have hpoint : ∀ n ∈ faceImage r.partition.root k j ∩ faceImage r.partition.root l j,
      ∃ v, n = {v} := by
    intro n hn
    obtain ⟨e, -, hne⟩ := mem_common h hn
    exact ⟨_, hne⟩
  rw [eq_bot_iff]
  intro x hx
  have hsupported : x ∈ Finsupp.supported (ZMod 2) (ZMod 2)
      (faceImage r.partition.root k j ∩ faceImage r.partition.root l j) := by
    rw [Finsupp.supported_inter]
    exact ⟨relabelled_boundaries_le _ k hj hx.1, relabelled_boundaries_le _ l hj hx.2⟩
  exact eq_zero_of_point (common_subsingleton h j) hpoint hsupported (boundary_of_relabelled hx.1)

theorem boundaryDim_gluing (j : Int) :
    boundaryDim r j = boundaryDim k j + boundaryDim l j := by
  by_cases hj : j ≤ 0
  · rw [boundaryDim_eq_zero (Or.inl hj), boundaryDim_eq_zero (Or.inl hj),
      boundaryDim_eq_zero (Or.inl hj)]
  · have hpos : 0 < j := Int.not_le.1 hj
    have hbelow : 0 ≤ j - 1 := by omega
    have hsum := Submodule.finrank_sup_add_finrank_inf_eq
      ((boundaries k (j - 1)).map (relabel r.partition.root))
      ((boundaries l (j - 1)).map (relabel r.partition.root))
    rw [boundaries_disjoint h hbelow, finrank_bot, add_zero, ← boundaries_gluing h.toIsGluing,
      finrank_relabel_boundaries h.injOn_left hbelow,
      finrank_relabel_boundaries h.injOn_right hbelow] at hsum
    rw [boundaryDim_eq_finrank r hpos, boundaryDim_eq_finrank k hpos, boundaryDim_eq_finrank l hpos]
    exact hsum

theorem faceCount_gluing {j : Int} (hj : 1 ≤ j) :
    faceCount r j = faceCount k j + faceCount l j := by
  -- a common face is a vertex, and those of positive degree have two
  have hempty : faceImage r.partition.root k j ∩ faceImage r.partition.root l j = ∅ := by
    rw [Set.eq_empty_iff_forall_notMem]
    intro n hn
    obtain ⟨e, -, rfl⟩ := mem_common h hn
    obtain ⟨⟨a, ⟨-, hcard⟩, ha⟩, -⟩ := hn
    rw [← Multiset.card_map r.partition.root, ha, Multiset.card_singleton] at hcard
    omega
  have hsum := Set.ncard_union_add_ncard_inter
    (faceImage r.partition.root k j) (faceImage r.partition.root l j)
    ((finite_faceSet k j).image _) ((finite_faceSet l j).image _)
  rw [hempty, Set.ncard_empty, add_zero, ← faceSet_gluing h.toIsGluing,
    ncard_faceImage h.injOn_left, ncard_faceImage h.injOn_right] at hsum
  exact hsum

theorem bettiCount_gluing {j : Int} (hj : 1 ≤ j) :
    bettiCount r j = bettiCount k j + bettiCount l j := by
  have hfaces := faceCount_gluing h hj
  have hbelow := boundaryDim_gluing h j
  have habove := boundaryDim_gluing h (j + 1)
  have hrj := bettiCount_add r j
  have hkj := bettiCount_add k j
  have hlj := bettiCount_add l j
  omega

/-- In degree zero a vertex of a pair is counted once instead of twice. -/
theorem bettiCount_zero_gluing :
    bettiCount r 0 + (distinct (classPairs k l m)).length = bettiCount k 0 + bettiCount l 0 := by
  -- the count of vertices of a gluing is the count of its faces in this degree
  have hfaces := h.sides.vertexCount_add h.resolves h.oneToOne h.toIsGluing
  have hbelow := boundaryDim_gluing h 0
  have habove := boundaryDim_gluing h (0 + 1)
  have hrj := bettiCount_add r 0
  have hkj := bettiCount_add k 0
  have hlj := bettiCount_add l 0
  rw [faceCount_zero] at hrj hkj hlj
  omega

end PointGluing

end Homology

namespace Complex

open Homology

variable {k l r : Complex} {m : Mapping}

theorem Apart.isPointGluing (h : Apart k l) (hglue : k.glue l m = .ok r)
    (hp : (distinct (classPairs k l m)).length ≤ 1) : IsPointGluing k l m r := by
  rcases glue_cases h.left_forest h.right_forest m with ⟨-, hf⟩ | ⟨-, -, hf⟩ | ⟨-, -, -, hf⟩ |
    ⟨hres, hone, -, q, heq, hq⟩
  · exact absurd hglue (hf.ne_ok r)
  · exact absurd hglue (hf.ne_ok r)
  · exact absurd hglue (hf.ne_ok r)
  · obtain rfl := Except.ok.inj (heq.symm.trans hglue)
    exact ⟨hq, h, hres, hone, eq_of_length_distinct_le_one hp⟩

theorem Apart.exists_glue (h : Apart k l) (hres : Resolves k l m)
    (hone : OneToOne (classPairs k l m)) : ∃ r, k.glue l m = .ok r := by
  rcases glue_cases h.left_forest h.right_forest m with ⟨hnot, -⟩ | ⟨-, hnot, -⟩ |
    ⟨-, -, hdeg, -⟩ | ⟨-, -, -, r, heq, -⟩
  · exact absurd hres hnot
  · exact absurd hone hnot
  · exact absurd hdeg (h.not_degenerates hres hone)
  · exact ⟨r, heq⟩

theorem Apart.exists_union (h : Apart k l) : ∃ r, k.glue l [] = .ok r ∧ k.union l = .ok r := by
  obtain ⟨r, hr⟩ := h.exists_glue (m := []) (by simp [Resolves]) (by simp [OneToOne, classPairs])
  have hagree : ¬ FailsWith (k.union l) .incompatibleIdentification := by
    rintro ⟨f, hf, hcode⟩
    rw [union_eq_quotient h.left h.right] at hf
    rcases quotient_cases "union" (k.partition.merge l.partition) (k.maximal ++ l.maximal) with
      ⟨-, heq⟩ | ⟨-, e, heq, he⟩
    · cases hf.symm.trans heq
    · cases hf.symm.trans heq
      cases hcode.symm.trans he
  rcases union_eq_glue_nil hagree with ⟨q, hunion, hglue⟩ | ⟨s, t, -, hglue⟩
  · exact ⟨q, hglue, hunion⟩
  · cases hr.symm.trans hglue

theorem IsGluing.bounded (h : IsGluing k l m r)
    (hk : ∀ s ∈ k.maximal, s.length ≤ Simplex.maxVertices)
    (hl : ∀ s ∈ l.maximal, s.length ≤ Simplex.maxVertices) :
    ∀ t ∈ r.maximal, t.length ≤ Simplex.maxVertices := by
  intro t ht
  obtain ⟨s, hs, hperm⟩ := h.source t ht
  rw [hperm.length_eq, List.length_map]
  rcases List.mem_append.1 hs with hs | hs
  · exact hk s hs
  · exact hl s hs

/-- The Betti numbers of a gluing of canonical complexes without a common name at one point are the
sums of theirs, less one in degree zero. Without a point to be glued at it is their union, and nothing
is taken away. -/
theorem glue_at_point_adds_betti (k l : Complex) (hkf : k.partition.Forest)
    (hlf : l.partition.Forest) (hk : k.Canonical) (hl : l.Canonical)
    (hkb : ∀ s ∈ k.maximal, s.length ≤ Simplex.maxVertices)
    (hlb : ∀ s ∈ l.maximal, s.length ≤ Simplex.maxVertices)
    (hkl : ∀ x ∈ k.partition.nodes, x ∉ l.partition.nodes) :
    (∃ r, k.glue l [] = .ok r ∧ k.union l = .ok r) ∧
    ∀ (m : Mapping) (r : Complex), k.glue l m = .ok r →
      (distinct (classPairs k l m)).length ≤ 1 →
      ((distinct (classPairs k l m)).length = 0 → k.union l = .ok r) ∧
      (∃ a b : Nat, betti k 0 = .ok a ∧ betti l 0 = .ok b ∧
        betti r 0 = .ok ((a : Int) + b - (distinct (classPairs k l m)).length)) ∧
      ∀ j : Int, 1 ≤ j → ∃ a b : Nat, betti k j = .ok a ∧ betti l j = .ok b ∧
        betti r j = .ok ((a : Int) + b) := by
  have hapart : Apart k l := ⟨hkf, hlf, hk, hl, hkl⟩
  obtain ⟨q, hglue, hunion⟩ := hapart.exists_union
  refine ⟨⟨q, hglue, hunion⟩, ?_⟩
  intro m r hr hp
  have h := hapart.isPointGluing hr hp
  have hrb := h.bounded hkb hlb
  refine ⟨?_, ⟨_, _, betti_eq hkb 0, betti_eq hlb 0, ?_⟩, ?_⟩
  · intro hzero
    have hnil : m = [] := by
      rw [List.eq_nil_iff_forall_not_mem]
      intro e he
      have hmem : _ ∈ distinct (classPairs k l m) := (mem_distinct _ _).2 (mem_classPairs he)
      rw [List.length_eq_zero_iff.1 hzero] at hmem
      exact List.not_mem_nil hmem
    rw [hunion, ← hr, hnil, hglue]
  · have hsum := bettiCount_zero_gluing h
    rw [betti_eq hrb]
    congr 1
    omega
  · intro j hj
    refine ⟨_, _, betti_eq hkb j, betti_eq hlb j, ?_⟩
    rw [betti_eq hrb, bettiCount_gluing h hj, Nat.cast_add]

/-- Two circles, one vertex of the first under two names, glued at a point, and side by side. -/
theorem glue_at_point_adds_betti_circles :
    let k := ofSimplices [["a", "b"], ["b", "c"], ["a", "c"]]
      ((Partition.empty.addAll ["a", "b", "c"]).union "c" "d").2
    let l := ofSimplices [["x", "y"], ["y", "z"], ["x", "z"]]
      (Partition.empty.addAll ["x", "y", "z"])
    k.Canonical ∧ l.Canonical ∧
      (∃ r, k.glue l [("c", "x"), ("d", "x")] = .ok r ∧ betti r 0 = .ok 1 ∧ betti r 1 = .ok 2) ∧
      ∃ q, k.union l = .ok q ∧ betti q 0 = .ok 2 ∧ betti q 1 = .ok 2 := by
  intro k l
  have hkf : k.partition.Forest :=
    (Partition.union_joined (Partition.addAll_forest Partition.empty_forest _) "c" "d").1.forest
  have hlf : l.partition.Forest := Partition.addAll_forest Partition.empty_forest _
  have hk : k.Canonical :=
    ⟨by decide +kernel, by decide +kernel, by decide +kernel, by decide +kernel⟩
  have hl : l.Canonical :=
    ⟨by decide +kernel, by decide +kernel, by decide +kernel, by decide +kernel⟩
  have hkb : ∀ s ∈ k.maximal, s.length ≤ Simplex.maxVertices := by decide +kernel
  have hlb : ∀ s ∈ l.maximal, s.length ≤ Simplex.maxVertices := by decide +kernel
  have hkl : ∀ x ∈ k.partition.nodes, x ∉ l.partition.nodes := by decide +kernel
  have hok : (k.glue l [("c", "x"), ("d", "x")]).isOk := by decide +kernel
  have hp : (distinct (classPairs k l [("c", "x"), ("d", "x")])).length = 1 := by decide +kernel
  have hk0 : betti k 0 = .ok 1 := by rfl
  have hk1 : betti k 1 = .ok 1 := by rfl
  have hl0 : betti l 0 = .ok 1 := by rfl
  have hl1 : betti l 1 = .ok 1 := by rfl
  clear_value k l
  obtain ⟨⟨q, hglue, hunion⟩, hadd⟩ := glue_at_point_adds_betti k l hkf hlf hk hl hkb hlb hkl
  have hsum : ∀ m r, k.glue l m = .ok r → (distinct (classPairs k l m)).length ≤ 1 →
      betti r 0 = .ok (1 + 1 - (distinct (classPairs k l m)).length) ∧ betti r 1 = .ok (1 + 1) := by
    intro m r hr hp
    obtain ⟨-, ⟨a, b, ha, hb, hzero⟩, hpos⟩ := hadd m r hr hp
    obtain ⟨a', b', ha', hb', hone⟩ := hpos 1 le_rfl
    rw [← Except.ok.inj (hk0.symm.trans ha), ← Except.ok.inj (hl0.symm.trans hb)] at hzero
    rw [← Except.ok.inj (hk1.symm.trans ha'), ← Except.ok.inj (hl1.symm.trans hb')] at hone
    exact ⟨hzero, hone⟩
  obtain ⟨r, hr⟩ := exists_of_isOk hok
  have hglued := hsum _ r hr hp.le
  rw [hp] at hglued
  exact ⟨hk, hl, ⟨r, hr, hglued⟩, q, hunion, hsum [] q hglue (Nat.zero_le 1)⟩

end Complex

end SimplexScript
