import Mathlib.Order.Bounds.Basic
import SimplexScript.Proofs.Complex.Graph
import SimplexScript.Proofs.Homology.Counts

/-!
# The simplices of a complex

The simplices listed for a complex are the non-empty subsequences of its
maximal simplices, each once whatever the order of its vertices. A face of a
listed simplex is therefore listed, the points are the vertices in their
order, and the greatest degree that has faces is the dimension.
-/

set_option autoImplicit false

namespace SimplexScript

theorem distinct_map {α β : Type} [DecidableEq α] [DecidableEq β] {f : α → β}
    (hf : Function.Injective f) (xs : List α) : distinct (xs.map f) = (distinct xs).map f := by
  induction xs with
  | nil => rfl
  | cons x xs ih =>
    rw [List.map_cons, distinct, distinct, ih, List.map_cons, List.filter_map]
    congr 2
    apply List.filter_congr
    intro y _
    simp [hf.eq_iff]

theorem Table.get?_groupBy {κ α : Type} [DecidableEq κ] (key : α → κ) (xs : List α) (k : κ) :
    (Table.get? (Table.groupBy key xs) k).getD [] = xs.filter fun x => decide (key x = k) := by
  have hkeys : Table.keys (Table.groupBy key xs) = distinct (xs.map key) := by
    simp [Table.keys, Table.groupBy, Function.comp_def]
  by_cases hk : k ∈ xs.map key
  · have hentry : (k, xs.filter fun x => decide (key x = k)) ∈ Table.groupBy key xs :=
      List.mem_map.2 ⟨k, (mem_distinct k _).2 hk, rfl⟩
    rw [(Table.get?_eq_some_iff (hkeys ▸ nodup_distinct _)).2 hentry, Option.getD_some]
  · have hnone : Table.get? (Table.groupBy key xs) k = none := by
      rw [← Option.not_isSome_iff_eq_none]
      intro hsome
      have hmem := (Table.contains_iff _ k).1 hsome
      rw [hkeys, mem_distinct] at hmem
      exact hk hmem
    rw [hnone, Option.getD_none, eq_comm, List.filter_eq_nil_iff]
    intro x hx he
    exact hk (List.mem_map.2 ⟨x, hx, of_decide_eq_true he⟩)

theorem Simplex.filter_points (s : Simplex) :
    (subfaces s).filter (fun u => decide (u.length = 1)) = s.map fun v => [v] := by
  induction s using List.reverseRecOn with
  | nil => rfl
  | append_singleton s v ih =>
    have hlonger : ((subfaces s).map fun u => u ++ [v]).filter
        (fun u => decide (u.length = 1)) = [] := by
      rw [List.filter_eq_nil_iff]
      intro u hu
      obtain ⟨t, ht, rfl⟩ := List.mem_map.1 hu
      simpa using (mem_subfaces.1 ht).1
    rw [subfaces_concat, extend, List.filter_append, ih, List.filter_cons_of_pos (by simp),
      hlonger, List.map_append, List.map_singleton]

theorem countP_perm_eq_one {all : List Simplex} (hapart : all.Pairwise fun s t => ¬ s.Perm t)
    {t : Simplex} (h : ∃ u ∈ all, u.Perm t) : all.countP (fun u => decide (u.Perm t)) = 1 := by
  induction all with
  | nil => simp at h
  | cons s all ih =>
    obtain ⟨hs, hall⟩ := List.pairwise_cons.1 hapart
    by_cases hst : s.Perm t
    · have hrest : all.countP (fun u => decide (u.Perm t)) = 0 := by
        rw [List.countP_eq_zero]
        intro u hu hut
        exact hs u hu (hst.trans (of_decide_eq_true hut).symm)
      rw [List.countP_cons_of_pos (by simpa using hst), hrest]
    · rw [List.countP_cons_of_neg (by simpa using hst)]
      apply ih hall
      obtain ⟨u, hu, hut⟩ := h
      rcases List.mem_cons.1 hu with rfl | hu
      · exact absurd hut hst
      · exact ⟨u, hu, hut⟩

namespace Complex

theorem simplices_of_tooLarge {c : Complex} (h : ∃ s ∈ c.maximal, Simplex.maxVertices < s.length) :
    ∃ s ∈ c.maximal, Simplex.maxVertices < s.length ∧
      c.simplices = .error (Simplex.tooLarge s) := by
  cases hfind : c.maximal.find? fun s => decide (Simplex.maxVertices < s.length) with
  | none =>
    obtain ⟨s, hs, hlt⟩ := h
    exact absurd (decide_eq_true hlt) (List.find?_eq_none.1 hfind s hs)
  | some s =>
    refine ⟨s, List.mem_of_find?_eq_some hfind, by simpa using List.find?_some hfind, ?_⟩
    rw [simplices, hfind]

/-- Each non-empty subsequence of a maximal simplex is listed, up to the order of its vertices. -/
theorem exists_perm_face {c : Complex} {s t : Simplex} (hs : s ∈ c.maximal) (hne : t ≠ [])
    (hsub : t.Sublist s) :
    ∃ u ∈ distinctBy Simplex.key (c.maximal.flatMap Simplex.subfaces), u.Perm t := by
  obtain ⟨u, hu, hkey⟩ : ∃ u ∈ distinctBy Simplex.key (c.maximal.flatMap Simplex.subfaces),
      Simplex.key u = Simplex.key t :=
    exists_mem_distinctBy (List.mem_flatMap.2 ⟨s, hs, Simplex.mem_subfaces.2 ⟨hne, hsub⟩⟩)
  exact ⟨u, hu, Simplex.key_eq_key.1 hkey⟩

theorem ofDegree_zero (c : Complex) :
    Homology.ofDegree 0 (distinctBy Simplex.key (c.maximal.flatMap Simplex.subfaces)) =
      c.vertices.map fun v => [v] := by
  have hsorted : ∀ ss : List Simplex, (∀ u ∈ ss, u.length = 1) → ss.map Text.sorted = ss := by
    intro ss hss
    have hone : ∀ u ∈ ss, Text.sorted u = id u := by
      intro u hu
      obtain ⟨v, rfl⟩ := List.length_eq_one_iff.1 (hss u hu)
      rfl
    rw [List.map_congr_left hone, List.map_id]
  have hfaces : (c.maximal.flatMap Simplex.subfaces).filter (fun u => decide (u.length = 1)) =
      c.maximal.flatten.map fun v => [v] := by
    rw [List.filter_flatMap, List.map_flatten, List.flatMap_def]
    congr 1
    exact List.map_congr_left fun s _ => Simplex.filter_points s
  calc Homology.ofDegree 0 (distinctBy Simplex.key (c.maximal.flatMap Simplex.subfaces))
      = (Homology.ofDegree 0 (distinctBy Simplex.key
          (c.maximal.flatMap Simplex.subfaces))).map Text.sorted := by
        rw [hsorted]
        intro u hu
        have hlen : (u.length : Int) = 0 + 1 := (Homology.mem_ofDegree.1 hu).2
        omega
    _ = facesOfSize 1 (c.maximal.flatMap Simplex.subfaces) := (facesOfSize_eq 0 _).symm
    _ = distinct (c.maximal.flatten.map fun v => [v]) := by
        rw [facesOfSize, hfaces, hsorted]
        intro u hu
        obtain ⟨v, -, rfl⟩ := List.mem_map.1 hu
        rfl
    _ = c.vertices.map fun v => [v] := distinct_map List.singleton_injective _

theorem degree_of_face {c : Complex} {k : Int}
    (h : Homology.ofDegree k (distinctBy Simplex.key (c.maximal.flatMap Simplex.subfaces)) ≠ []) :
    0 ≤ k ∧ k ≤ c.dimension := by
  obtain ⟨u, hu⟩ := List.exists_mem_of_ne_nil _ h
  obtain ⟨hmem, hlen⟩ := Homology.mem_ofDegree.1 hu
  have hpos := List.length_pos_iff.2 (Homology.mem_faces hmem).1
  have hle := Homology.length_face_le hmem
  omega

theorem ofDegree_dimension_ne_nil {c : Complex} (h : 0 ≤ c.dimension) :
    Homology.ofDegree c.dimension
      (distinctBy Simplex.key (c.maximal.flatMap Simplex.subfaces)) ≠ [] := by
  obtain ⟨m, hm, hcard⟩ := exists_hasFace h
  obtain ⟨u, hu, rfl⟩ := Homology.hasFace_iff_listed.1 hm
  exact List.ne_nil_of_mem (Homology.mem_ofDegree.2 ⟨hu, hcard⟩)

/-- If a maximal simplex has more than twenty vertices, the size of one that does is reported.
Otherwise the listed simplices are the non-empty subsequences of the maximal simplices and no
others, each listed once up to the order of its vertices, so every face of one of them is listed.
The points are the vertices in their order. The skeleton holds the simplices by degree; its greatest
degree is the dimension, and there is no degree at all if the dimension is -1. -/
theorem simplices_are_downward_closure (c : Complex) :
    ((∃ s ∈ c.maximal, 20 < s.length) → ∃ s ∈ c.maximal, 20 < s.length ∧
      c.simplices = .error (.simplexTooLarge (.ofInt s.length) (.ofInt 20))) ∧
    ((∀ s ∈ c.maximal, s.length ≤ 20) → ∃ all table,
      c.simplices = .ok all ∧ Homology.skeleton c = .ok table ∧
      (∀ s ∈ c.maximal, ∀ t : Simplex, t ≠ [] → t.Sublist s →
        all.countP (fun u => decide (u.Perm t)) = 1) ∧
      (∀ u ∈ all, u ≠ [] ∧ ∃ s ∈ c.maximal, u.Sublist s) ∧
      (∀ u ∈ all, ∀ t : Simplex, t ≠ [] → t.Sublist u → ∃ w ∈ all, w.Perm t) ∧
      (all.filter fun u => decide (u.length = 1)) = c.vertices.map (fun v => [v]) ∧
      (∀ k : Nat, Homology.degreeFaces c k = .ok ((Table.get? table k).getD [])) ∧
      (c.dimension = -1 → ∀ k, Homology.degreeFaces c k = .ok []) ∧
      (c.dimension ≠ -1 → IsGreatest
        {k | ∃ faces, Homology.degreeFaces c k = .ok faces ∧ faces ≠ []} c.dimension)) := by
  refine ⟨fun h => simplices_of_tooLarge h, ?_⟩
  intro hsize
  have hall := Homology.exists_simplices hsize
  have hclosed := Homology.closed_faces c.maximal
  have htable : Homology.skeleton c = .ok (Table.groupBy (fun s => s.length - 1)
      (distinctBy Simplex.key (c.maximal.flatMap Simplex.subfaces))) := by
    rw [Homology.skeleton, hall]
    rfl
  refine ⟨_, _, hall, htable, ?_, fun u hu => Homology.mem_faces hu, ?_, ?_, ?_, ?_, ?_⟩
  · intro s hs t hne hsub
    exact countP_perm_eq_one hclosed.apart (exists_perm_face hs hne hsub)
  · intro u hu t hne hsub
    obtain ⟨-, s, hs, hus⟩ := Homology.mem_faces hu
    exact exists_perm_face hs hne (hsub.trans hus)
  · rw [← ofDegree_zero]
    apply List.filter_congr
    intro u _
    exact decide_eq_decide.2 (by omega)
  · intro k
    rw [Homology.degreeFaces_eq hall, Table.get?_groupBy, hclosed.filter_degree]
  · intro hdim k
    rw [Homology.degreeFaces_eq hall]
    congr 1
    by_contra hne
    have hk := degree_of_face hne
    omega
  · intro hdim
    have hleast := c.neg_one_le_dimension
    constructor
    · exact ⟨_, Homology.degreeFaces_eq hall _, ofDegree_dimension_ne_nil (by omega)⟩
    · rintro k ⟨faces, hfaces, hne⟩
      rw [Homology.degreeFaces_eq hall] at hfaces
      cases hfaces
      exact (degree_of_face hne).2

/-- Two triangles that list their common edge in opposite order and a simplex with a repeated
vertex; beside them, a simplex that is too large. -/
theorem simplices_are_downward_closure_shared :
    let c := ofSimplices [["d", "b", "a"], ["b", "d", "c"], ["e", "e"]] .empty
    let large := ofSimplices [["a"], List.replicate 21 "a"] .empty
    (∃ s ∈ large.maximal, 20 < s.length ∧
      large.simplices = .error (.simplexTooLarge (.ofInt s.length) (.ofInt 20))) ∧
    (∀ s ∈ c.maximal, s.length ≤ 20) ∧ c.dimension = 2 ∧ ∃ all, c.simplices = .ok all ∧
      all.length = 13 ∧ all.countP (fun u => decide (u.Perm ["d", "b"])) = 1 ∧
      (all.filter fun u => decide (u.length = 1)) = [["d"], ["b"], ["a"], ["c"], ["e"]] ∧
      IsGreatest {k | ∃ faces, Homology.degreeFaces c k = .ok faces ∧ faces ≠ []} 2 := by
  intro c large
  have hlarge : ∃ s ∈ large.maximal, 20 < s.length := by decide +kernel
  have hsize : ∀ s ∈ c.maximal, s.length ≤ 20 := by decide +kernel
  have hdim : c.dimension = 2 := by decide +kernel
  have hcount : (c.simplices.map List.length) = .ok 13 := by rfl
  obtain ⟨all, table, hall, -, honce, -, -, hpoints, -, -, hgreatest⟩ :=
    (simplices_are_downward_closure c).2 hsize
  rw [hall] at hcount
  rw [hdim] at hgreatest
  refine ⟨(simplices_are_downward_closure large).1 hlarge, hsize, hdim, all, hall,
    Except.ok.inj hcount, ?_, hpoints.trans (by decide +kernel), hgreatest (by decide)⟩
  exact honce ["d", "b", "a"] (by decide +kernel) ["d", "b"] (by decide) (by decide)

end Complex

end SimplexScript
