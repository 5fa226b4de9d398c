import SimplexScript.Proofs.Homology.Cones
import SimplexScript.Proofs.Homology.Counts

/-!
# The faces of a join

With the empty face counted in, a face of a join is a face of one complex and
a face of the other together. Where the complexes have no vertex in common the
two can be told apart again, so faces are pairs of faces. Their number is the
product of the numbers, and the sizes of the largest add up.
-/

set_option autoImplicit false

namespace SimplexScript.Complex

def parts (c : Complex) : Set (Multiset String) := insert 0 {m | c.HasFace m}

variable {k l r c : Complex} {m : Multiset String}

theorem mem_parts (h : c.maximal ≠ []) :
    m ∈ c.parts ↔ ∃ s ∈ c.maximal, m ≤ (s : Multiset String) := by
  constructor
  · intro hm
    rcases hm with rfl | ⟨-, hs⟩
    · obtain ⟨s, hs⟩ := List.exists_mem_of_ne_nil _ h
      exact ⟨s, hs, Multiset.zero_le _⟩
    · exact hs
  · intro hs
    by_cases hm : m = 0
    · exact Or.inl hm
    · exact Or.inr ⟨hm, hs⟩

theorem ncard_parts (c : Complex) : c.parts.ncard = {m | c.HasFace m}.ncard + 1 := by
  apply Set.ncard_insert_of_notMem _ (Homology.finite_faces c)
  intro h
  exact h.1 rfl

theorem card_le_of_mem_parts (h : m ∈ c.parts) : (m.card : Int) ≤ c.dimension + 1 := by
  rcases h with rfl | h
  · have hdim := c.neg_one_le_dimension
    rw [Multiset.card_zero]
    omega
  · exact h.card_le

theorem exists_mem_parts (c : Complex) : ∃ m ∈ c.parts, (m.card : Int) = c.dimension + 1 := by
  by_cases h : 0 ≤ c.dimension
  · obtain ⟨m, hm, hcard⟩ := exists_hasFace h
    exact ⟨m, Or.inr hm, hcard⟩
  · have hdim := c.neg_one_le_dimension
    exact ⟨0, Or.inl rfl, by rw [Multiset.card_zero]; omega⟩

theorem mem_vertices_of_parts (h : m ∈ c.parts) {v : String} (hv : v ∈ m) : v ∈ c.vertices := by
  rcases h with rfl | h
  · exact absurd hv (Multiset.notMem_zero v)
  · exact h.mem_vertices hv

theorem exists_parts_of_le {s t : Multiset String} (h : m ≤ s + t) :
    ∃ a ≤ s, ∃ b ≤ t, a + b = m := by
  refine ⟨m ∩ s, Multiset.inter_le_right, m - s, ?_, ?_⟩
  · exact tsub_le_iff_left.2 h
  · rw [add_comm, Multiset.sub_add_inter]

theorem add_injOn_parts (hkl : ∀ v ∈ k.vertices, v ∉ l.vertices) :
    Set.InjOn (fun e : Multiset String × Multiset String => e.1 + e.2) (k.parts ×ˢ l.parts) := by
  -- the vertices of the first complex cut the first part out of the sum
  have hleft : ∀ e ∈ k.parts ×ˢ l.parts, (e.1 + e.2).filter (· ∈ k.vertices) = e.1 := by
    intro e he
    have hfirst : e.1.filter (· ∈ k.vertices) = e.1 :=
      Multiset.filter_eq_self.2 fun v hv => mem_vertices_of_parts he.1 hv
    have hsecond : e.2.filter (· ∈ k.vertices) = 0 :=
      Multiset.filter_eq_nil.2 fun v hv hk => hkl v hk (mem_vertices_of_parts he.2 hv)
    rw [Multiset.filter_add, hfirst, hsecond, add_zero]
  intro e he d hd hed
  have hfst : e.1 = d.1 := by
    rw [← hleft e he, ← hleft d hd]
    exact congrArg _ hed
  have hsnd : e.2 = d.2 := by
    have hsum : e.1 + e.2 = d.1 + d.2 := hed
    rw [hfst] at hsum
    exact add_left_cancel hsum
  exact Prod.ext hfst hsnd

section Join

variable (h : IsJoin k l r) (hk : k.Proper) (hl : l.Proper)
  (hkl : ∀ v ∈ k.vertices, v ∉ l.vertices)

include h hk hl hkl

/-- Faces of a join are pairs of faces, of which one may be empty. -/
theorem IsJoin.parts_eq : r.parts = (fun e => e.1 + e.2) '' (k.parts ×ˢ l.parts) := by
  have hface : ∀ m, m ∈ r.parts ↔ m = 0 ∨
      ∃ s ∈ k.maximal, ∃ t ∈ l.maximal, m ≤ (s + t : Multiset String) := by
    intro m
    rw [parts, Set.mem_insert_iff, Set.mem_ofPred_eq,
      h.hasFace_iff hk.toCanonical hl.toCanonical hkl]
    tauto
  ext m
  rw [hface]
  constructor
  · rintro (rfl | ⟨s, hs, t, ht, hle⟩)
    · exact ⟨(0, 0), ⟨Or.inl rfl, Or.inl rfl⟩, rfl⟩
    · obtain ⟨a, ha, b, hb, rfl⟩ := exists_parts_of_le hle
      exact ⟨(a, b), ⟨(mem_parts hk.maximal_ne_nil).2 ⟨s, hs, ha⟩,
        (mem_parts hl.maximal_ne_nil).2 ⟨t, ht, hb⟩⟩, rfl⟩
  · rintro ⟨⟨a, b⟩, ⟨ha, hb⟩, rfl⟩
    obtain ⟨s, hs, has⟩ := (mem_parts hk.maximal_ne_nil).1 ha
    obtain ⟨t, ht, hbt⟩ := (mem_parts hl.maximal_ne_nil).1 hb
    exact Or.inr ⟨s, hs, t, ht, add_le_add has hbt⟩

theorem IsJoin.ncard_parts : r.parts.ncard = k.parts.ncard * l.parts.ncard := by
  rw [h.parts_eq hk hl hkl, (add_injOn_parts hkl).ncard_image, Set.ncard_prod]

theorem IsJoin.dimension_eq : r.dimension = k.dimension + l.dimension + 1 := by
  have hparts := h.parts_eq hk hl hkl
  apply le_antisymm
  · obtain ⟨m, hm, hcard⟩ := exists_mem_parts r
    rw [hparts] at hm
    obtain ⟨⟨a, b⟩, ⟨ha, hb⟩, rfl⟩ := hm
    have hka : (a.card : Int) ≤ k.dimension + 1 := card_le_of_mem_parts ha
    have hlb : (b.card : Int) ≤ l.dimension + 1 := card_le_of_mem_parts hb
    rw [Multiset.card_add] at hcard
    push_cast at hcard
    omega
  · obtain ⟨a, ha, hka⟩ := exists_mem_parts k
    obtain ⟨b, hb, hlb⟩ := exists_mem_parts l
    have hm : a + b ∈ r.parts := hparts ▸ ⟨(a, b), ⟨ha, hb⟩, rfl⟩
    have hcard := card_le_of_mem_parts hm
    rw [Multiset.card_add] at hcard
    push_cast at hcard
    omega

end Join

/-- The join of canonical complexes without a common name exists. Its dimension is one more than the
sum of theirs, and with the empty face counted in, its faces are as many as pairs of theirs. -/
theorem join_multiplies_faces (k l : Complex) (hkf : k.Formed) (hlf : l.Formed) (hk : k.Canonical)
    (hl : l.Canonical) (hkne : k.maximal ≠ []) (hlne : l.maximal ≠ [])
    (hkl : ∀ x ∈ k.partition.nodes, x ∉ l.partition.nodes)
    (hlen : ∀ s ∈ k.maximal, ∀ t ∈ l.maximal, s.length + t.length ≤ Simplex.maxVertices) :
    ∃ r a b n, k.join l = .ok r ∧ r.dimension = k.dimension + l.dimension + 1 ∧
      k.simplexCount = .ok a ∧ l.simplexCount = .ok b ∧ r.simplexCount = .ok n ∧
      n + 1 = (a + 1) * (b + 1) := by
  have hkp := hkf.proper hk hkne
  have hlp := hlf.proper hl hlne
  have hapart : ∀ v ∈ k.vertices, v ∉ l.vertices := fun v hvk hvl =>
    hkl v (hk.representative v hvk).1 (hl.representative v hvl).1
  obtain ⟨r, hr, hjoin⟩ := exists_join_of_apart hkf.forest hkp hlf.forest hlp hkl
  have hkb : ∀ s ∈ k.maximal, s.length ≤ Simplex.maxVertices := by
    intro s hs
    obtain ⟨t, ht⟩ := List.exists_mem_of_ne_nil _ hlne
    have hst := hlen s hs t ht
    omega
  have hlb : ∀ t ∈ l.maximal, t.length ≤ Simplex.maxVertices := by
    intro t ht
    obtain ⟨s, hs⟩ := List.exists_mem_of_ne_nil _ hkne
    have hst := hlen s hs t ht
    omega
  have hrb : ∀ u ∈ r.maximal, u.length ≤ Simplex.maxVertices := by
    intro u hu
    obtain ⟨s, hs, t, ht, hperm⟩ := hjoin.source u hu
    rw [distinct_append_of_apart hk hl hapart hs ht] at hperm
    rw [hperm.length_eq, List.length_append]
    exact hlen s hs t ht
  have hcount := hjoin.ncard_parts hkp hlp hapart
  rw [ncard_parts, ncard_parts, ncard_parts] at hcount
  exact ⟨r, _, _, _, hr, hjoin.dimension_eq hkp hlp hapart, Homology.simplexCount_eq hkb,
    Homology.simplexCount_eq hlb, Homology.simplexCount_eq hrb, hcount⟩

/-- A path of two edges, one end of which has two names, joined with an edge: two tetrahedra that
share a triangle. -/
theorem join_multiplies_faces_tetrahedra :
    let k := ofSimplices [["a", "b"], ["b", "c"]]
      ((Partition.empty.addAll ["a", "b", "c"]).union "c" "d").2
    let l := ofSimplices [["x", "y"]] (Partition.empty.addAll ["x", "y"])
    k.Canonical ∧ l.Canonical ∧ k.simplexCount = .ok 5 ∧ l.simplexCount = .ok 3 ∧
      ∃ r, k.join l = .ok r ∧ r.dimension = 3 ∧ r.simplexCount = .ok 23 := by
  intro k l
  have hkf : k.Formed := formed_ofSimplices (Partition.union_joined
    (Partition.addAll_forest Partition.empty_forest _) "c" "d").1.forest _
  have hlf : l.Formed := formed_ofSimplices (Partition.addAll_forest Partition.empty_forest _) _
  have hk : k.Canonical :=
    ⟨by decide +kernel, by decide +kernel, by decide +kernel, by decide +kernel⟩
  have hl : l.Canonical :=
    ⟨by decide +kernel, by decide +kernel, by decide +kernel, by decide +kernel⟩
  have hkne : k.maximal ≠ [] := by decide +kernel
  have hlne : l.maximal ≠ [] := by decide +kernel
  have hkl : ∀ x ∈ k.partition.nodes, x ∉ l.partition.nodes := by decide +kernel
  have hlen : ∀ s ∈ k.maximal, ∀ t ∈ l.maximal, s.length + t.length ≤ Simplex.maxVertices := by
    decide +kernel
  have hfive : k.simplexCount = .ok 5 := by rfl
  have hthree : l.simplexCount = .ok 3 := by rfl
  have hone : k.dimension = 1 ∧ l.dimension = 1 := by decide +kernel
  obtain ⟨r, a, b, n, hr, hdim, ha, hb, hn, hcount⟩ :=
    join_multiplies_faces k l hkf hlf hk hl hkne hlne hkl hlen
  obtain rfl : 5 = a := Except.ok.inj (hfive.symm.trans ha)
  obtain rfl : 3 = b := Except.ok.inj (hthree.symm.trans hb)
  obtain rfl : n = 23 := by omega
  exact ⟨hk, hl, hfive, hthree, r, hr, by omega, hn⟩

end SimplexScript.Complex
