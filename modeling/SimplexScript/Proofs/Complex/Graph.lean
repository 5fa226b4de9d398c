import SimplexScript.Complex.Summary
import SimplexScript.Proofs.Complex.Union
import SimplexScript.Proofs.Homology.Faces

/-!
# Graphs of canonical complexes

A canonical complex is its own image under its representatives, so a drawing
lists the faces of the maximal simplices as they stand. It sorts each face
before it drops repetitions, while the skeleton drops faces with a key it has
met. Both tell faces apart up to the order of vertices and keep the first of
each, so the drawing is the skeleton with its faces sorted.
-/

set_option autoImplicit false

namespace SimplexScript.Complex

variable {c : Complex}

theorem Canonical.image_eq (hc : c.Canonical) {s : Simplex} (hs : s ∈ c.maximal) :
    image c.partition s = s := by
  rw [image, hc.map_root hs, distinct_eq_self (hc.simplex_nodup s hs)]

theorem drawable_of_small {p : Partition String} {ss : List Simplex}
    (h : ∀ s ∈ ss, (image p s).length ≤ Simplex.maxVertices) : drawable p ss = (ss, none) := by
  induction ss with
  | nil => rfl
  | cons s ss ih =>
    rw [drawable, if_neg (Nat.not_lt.2 (h s (by simp))), ih fun t ht => h t (by simp [ht])]

theorem Canonical.withNodes_eq (hc : c.Canonical) : c.withNodes c.maximal.flatten = c := by
  have hknown : c.partition.addAll c.maximal.flatten = c.partition := by
    apply Partition.addAll_of_subset
    intro v hv
    obtain ⟨s, hs, hvs⟩ := List.mem_flatten.1 hv
    exact hc.mem_of_simplex hs hvs
  rw [withNodes, hknown]

theorem Canonical.ids_eq (hc : c.Canonical) :
    distinct (c.vertices.map c.partition.root) = c.vertices := by
  have hroot : ∀ v ∈ c.vertices, c.partition.root v = id v := fun v hv =>
    (hc.representative v hv).2
  have hnodup : c.vertices.Nodup := nodup_distinct _
  rw [List.map_congr_left hroot, List.map_id, distinct_eq_self hnodup]

theorem Canonical.graph_eq (hc : c.Canonical)
    (hsize : ∀ s ∈ c.maximal, s.length ≤ Simplex.maxVertices) :
    c.graph = (.ok ⟨c.vertices.map fun r => (r, c.partition.block r),
      facesOfSize 2 (c.maximal.flatMap Simplex.subfaces),
      facesOfSize 3 (c.maximal.flatMap Simplex.subfaces)⟩, c) := by
  have hdraw : drawable c.partition c.maximal = (c.maximal, none) :=
    drawable_of_small fun s hs => (hc.image_eq hs).symm ▸ hsize s hs
  have hfaces : (c.maximal.flatMap fun s => Simplex.subfaces (image c.partition s)) =
      c.maximal.flatMap Simplex.subfaces :=
    List.flatMap_congr fun s hs => by rw [hc.image_eq hs]
  simp only [graph, hdraw, hc.withNodes_eq, hfaces, hc.ids_eq]

/-- Sorting the faces of one size and dropping repetitions gives the faces of the skeleton that
have that size, sorted. -/
theorem facesOfSize_eq (n : Nat) (faces : List Simplex) :
    facesOfSize (n + 1) faces =
      (Homology.ofDegree n (distinctBy Simplex.key faces)).map Text.sorted := by
  have hkey : ∀ s t : Simplex, Simplex.key s = Simplex.key t ↔ Text.sorted s = Text.sorted t :=
    fun s t => Simplex.key_eq_key.trans Text.sorted_eq_sorted.symm
  have hsize : ∀ ss : List Simplex, (ss.filter fun s => decide (s.length = n + 1)).map Text.sorted =
      (ss.map Text.sorted).filter fun s => decide (s.length = n + 1) := by
    intro ss
    rw [List.filter_map]
    congr 1
    apply List.filter_congr
    intro s _
    simp [(Text.perm_sorted s).length_eq]
  have hdegree : Homology.ofDegree n (distinctBy Simplex.key faces) =
      (distinctBy Simplex.key faces).filter fun s => decide (s.length = n + 1) := by
    apply List.filter_congr
    intro s _
    exact decide_eq_decide.2 (by omega)
  rw [facesOfSize, hdegree, hsize, hsize, map_distinctBy hkey, filter_distinct]

theorem mem_vertices_of_facesOfSize {n : Nat} {s : Simplex}
    (hs : s ∈ facesOfSize n (c.maximal.flatMap Simplex.subfaces)) {v : String} (hv : v ∈ s) :
    v ∈ c.vertices := by
  obtain ⟨face, hface, rfl⟩ := List.mem_map.1 ((mem_distinct s _).1 hs)
  obtain ⟨t, ht, hsub⟩ := List.mem_flatMap.1 (List.mem_filter.1 hface).1
  have hmem := (Text.perm_sorted face).mem_iff.1 hv
  exact mem_vertices.2 ⟨t, ht, (Simplex.mem_subfaces.1 hsub).2.subset hmem⟩

theorem Canonical.mem_block_iff (hc : c.Canonical) {r x : String} (hr : r ∈ c.vertices) :
    x ∈ c.partition.block r ↔ x ∈ c.partition.nodes ∧ c.partition.root x = r := by
  obtain ⟨hmem, hroot⟩ := hc.representative r hr
  rw [Partition.mem_block hmem, hroot]

theorem Canonical.perm_members (hc : c.Canonical) :
    (c.vertices.flatMap fun r => c.partition.block r).Perm c.partition.nodes := by
  have hblock : ∀ r ∈ c.vertices, c.partition.block r =
      c.partition.nodes.filter fun x => decide (c.partition.root x = r) := by
    intro r hr
    obtain ⟨hmem, hroot⟩ := hc.representative r hr
    rw [Partition.block, if_pos (Partition.contains_iff.2 hmem), hroot]
  rw [List.flatMap_congr hblock]
  exact perm_flatMap_filter c.partition.root (nodup_distinct _) hc.covered

/-- The drawing of a canonical complex lists the edges and the triangles of the complex in the order
of its skeleton, each once and sorted. Its nodes are the vertices in order with their classes, in
which every name is listed once, and edges and triangles run between nodes. Nothing new is learned
of the complex. -/
theorem graph_lists_skeleton (hc : c.Canonical)
    (hsize : ∀ s ∈ c.maximal, s.length ≤ Simplex.maxVertices) :
    ∃ g edges triangles, c.graph = (.ok g, c) ∧
      (Homology.degreeFaces c 1 = .ok edges ∧ g.edges = edges.map Text.sorted ∧ g.edges.Nodup) ∧
      (Homology.degreeFaces c 2 = .ok triangles ∧ g.triangles = triangles.map Text.sorted ∧
        g.triangles.Nodup) ∧
      g.nodes.map Prod.fst = c.vertices ∧
      (g.nodes.flatMap Prod.snd).Perm c.partition.nodes ∧
      (∀ e ∈ g.nodes, ∀ x, x ∈ e.2 ↔ x ∈ c.partition.nodes ∧ c.partition.root x = e.1) ∧
      ∀ s ∈ g.edges ++ g.triangles, ∀ v ∈ s, v ∈ g.nodes.map Prod.fst := by
  have hsimplices := Homology.exists_simplices hsize
  have hids : (c.vertices.map fun r => (r, c.partition.block r)).map Prod.fst = c.vertices := by
    simp [Function.comp_def]
  refine ⟨_, _, _, hc.graph_eq hsize,
    ⟨Homology.degreeFaces_eq hsimplices 1, facesOfSize_eq 1 _, nodup_distinct _⟩,
    ⟨Homology.degreeFaces_eq hsimplices 2, facesOfSize_eq 2 _, nodup_distinct _⟩,
    hids, ?_, ?_, ?_⟩
  · rw [List.flatMap_map]
    exact hc.perm_members
  · intro e he x
    obtain ⟨r, hr, rfl⟩ := List.mem_map.1 he
    exact hc.mem_block_iff hr
  · intro s hs v hv
    rw [hids]
    rcases List.mem_append.1 hs with hs | hs
    · exact mem_vertices_of_facesOfSize hs hv
    · exact mem_vertices_of_facesOfSize hs hv

/-- Two triangles that list their common edge in opposite order, and a vertex with two names. -/
theorem graph_lists_skeleton_shared :
    let c := ofSimplices [["d", "b", "a"], ["b", "d", "c"]]
      ((Partition.empty.addAll ["d", "b", "a", "c"]).union "a" "x").2
    c.Canonical ∧ ∃ g, c.graph = (.ok g, c) ∧
      g.nodes.map Prod.fst = ["d", "b", "a", "c"] ∧
      g.edges = [["b", "d"], ["a", "d"], ["a", "b"], ["b", "c"], ["c", "d"]] ∧
      g.triangles = [["a", "b", "d"], ["b", "c", "d"]] ∧
      (g.nodes.flatMap Prod.snd).Perm ["d", "b", "a", "c", "x"] := by
  intro c
  have hc : c.Canonical :=
    ⟨by decide +kernel, by decide +kernel, by decide +kernel, by decide +kernel⟩
  have hsize : ∀ s ∈ c.maximal, s.length ≤ Simplex.maxVertices := by decide +kernel
  obtain ⟨g, edges, triangles, hg, ⟨he, hedges, -⟩, ⟨ht, htriangles, -⟩, hids, hmembers, -⟩ :=
    graph_lists_skeleton hc hsize
  have hedges' : (Homology.degreeFaces c 1).map (List.map Text.sorted) =
      .ok [["b", "d"], ["a", "d"], ["a", "b"], ["b", "c"], ["c", "d"]] := by rfl
  have htriangles' : (Homology.degreeFaces c 2).map (List.map Text.sorted) =
      .ok [["a", "b", "d"], ["b", "c", "d"]] := by rfl
  have hvertices : c.vertices = ["d", "b", "a", "c"] := by decide +kernel
  have hnodes : c.partition.nodes = ["d", "b", "a", "c", "x"] := by decide +kernel
  rw [he] at hedges'
  rw [ht] at htriangles'
  exact ⟨hc, g, hg, hids.trans hvertices, hedges.trans (Except.ok.inj hedges'),
    htriangles.trans (Except.ok.inj htriangles'), hnodes ▸ hmembers⟩

end SimplexScript.Complex
