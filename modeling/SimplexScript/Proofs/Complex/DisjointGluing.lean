import Mathlib.Data.Finset.Card
import SimplexScript.Proofs.Complex.Gluing

/-!
# Gluings of disjoint complexes

Where canonical complexes have no name in common, a one-to-one pairing of
classes is all that ties them, and no chain of ties returns to the complex it
came from. So every vertex of either complex keeps apart from the others of
its side, no simplex shrinks, and each pair of classes costs one vertex.
-/

set_option autoImplicit false

namespace SimplexScript.Complex

structure Apart (k l : Complex) : Prop where
  left_forest : k.partition.Forest
  right_forest : l.partition.Forest
  left : k.Canonical
  right : l.Canonical
  unshared : ∀ x ∈ k.partition.nodes, x ∉ l.partition.nodes

/-- The first complex keeps its representatives, and a class of the second that is paired takes the
representative it is paired with. -/
def meeting (k l : Complex) (m : Mapping) (x : String) : String :=
  if x ∈ k.partition.nodes then k.partition.root x
  else
    match (classPairs k l m).find? fun e => decide (e.2 = l.partition.root x) with
    | some e => e.1
    | none => l.partition.root x

theorem card_vertices (c : Complex) : c.vertices.toFinset.card = c.vertexCount :=
  List.toFinset_card_of_nodup (nodup_distinct _)

theorem card_image_vertices {c : Complex} {f : String → String}
    (h : Set.InjOn f {v | v ∈ c.vertices}) :
    (c.vertices.toFinset.image f).card = c.vertexCount := by
  rw [← card_vertices, Finset.card_image_of_injOn]
  simpa using h

variable {k l : Complex} {m : Mapping}

theorem mem_classPairs {e : String × String} (he : e ∈ m) :
    (k.partition.root e.1, l.partition.root e.2) ∈ classPairs k l m :=
  List.mem_map.2 ⟨e, he, rfl⟩

theorem meeting_left {x : String} (hx : x ∈ k.partition.nodes) :
    meeting k l m x = k.partition.root x := if_pos hx

theorem meeting_paired {x : String} (hx : x ∉ k.partition.nodes)
    (hone : OneToOne (classPairs k l m)) {e : String × String} (he : e ∈ classPairs k l m)
    (hex : e.2 = l.partition.root x) : meeting k l m x = e.1 := by
  rw [meeting, if_neg hx]
  cases hf : (classPairs k l m).find? fun e => decide (e.2 = l.partition.root x) with
  | none => exact absurd hex (by simpa using List.find?_eq_none.1 hf e he)
  | some d =>
    have hd : d.2 = l.partition.root x := by simpa using List.find?_some hf
    exact (hone d (List.mem_of_find?_eq_some hf) e he).2 (hd.trans hex.symm)

theorem meeting_unpaired {x : String} (hx : x ∉ k.partition.nodes)
    (hnone : ∀ e ∈ classPairs k l m, e.2 ≠ l.partition.root x) :
    meeting k l m x = l.partition.root x := by
  have hf : (classPairs k l m).find? (fun e => decide (e.2 = l.partition.root x)) = none :=
    List.find?_eq_none.2 fun e he => by simpa using hnone e he
  rw [meeting, if_neg hx, hf]

namespace Apart

variable (h : Apart k l)

include h

theorem not_mem_left {x : String} (hx : x ∈ l.partition.nodes) : x ∉ k.partition.nodes :=
  fun hk => h.unshared x hk hx

/-- What is glued together meets: each of the three ties joins names that meet already. -/
theorem meeting_eq (hres : Resolves k l m) (hone : OneToOne (classPairs k l m)) {x y : String}
    (hxy : Glued k l m x y) : meeting k l m x = meeting k l m y := by
  have hequiv : Equivalence fun x y => meeting k l m x = meeting k l m y :=
    ⟨fun _ => rfl, Eq.symm, Eq.trans⟩
  apply hequiv.eqvGen_iff.1
  apply Relation.EqvGen.mono _ x y hxy
  rintro a b (hab | hab | hab)
  · have hroot := (Partition.same_iff h.left_forest).1 hab
    by_cases hne : a = b
    · rw [hne]
    · obtain ⟨ha, hb⟩ := Partition.mem_of_root_eq h.left_forest hroot hne
      rw [meeting_left ha, meeting_left hb, hroot]
  · have hroot := (Partition.same_iff h.right_forest).1 hab
    by_cases hne : a = b
    · rw [hne]
    · obtain ⟨ha, hb⟩ := Partition.mem_of_root_eq h.right_forest hroot hne
      rw [meeting, meeting, if_neg (h.not_mem_left ha), if_neg (h.not_mem_left hb), hroot]
  · have hb := h.not_mem_left (hres _ hab).2.1
    rw [meeting_left (hres _ hab).1.1, meeting_paired hb hone (mem_classPairs hab) rfl]

theorem meeting_left_vertex {v : String} (hv : v ∈ k.vertices) : meeting k l m v = v := by
  obtain ⟨hmem, hroot⟩ := h.left.representative v hv
  rw [meeting_left hmem, hroot]

theorem meeting_right_vertex (hone : OneToOne (classPairs k l m)) {w : String}
    (hw : w ∈ l.vertices) :
    (meeting k l m w, w) ∈ classPairs k l m ∨ meeting k l m w = w := by
  obtain ⟨hmem, hroot⟩ := h.right.representative w hw
  have hleft := h.not_mem_left hmem
  by_cases hex : ∃ e ∈ classPairs k l m, e.2 = l.partition.root w
  · obtain ⟨e, he, hew⟩ := hex
    rw [meeting_paired hleft hone he hew]
    rw [hroot] at hew
    exact Or.inl (hew ▸ he)
  · simp only [not_exists, not_and] at hex
    exact Or.inr ((meeting_unpaired hleft hex).trans hroot)

theorem mem_vertices_of_pair (hres : Resolves k l m) {e : String × String}
    (he : e ∈ classPairs k l m) : e.1 ∈ k.vertices ∧ e.2 ∈ l.vertices := by
  obtain ⟨d, hd, rfl⟩ := List.mem_map.1 he
  exact ⟨h.left.covered _ (hres d hd).1.1, h.right.covered _ (hres d hd).2.1⟩

theorem ne_of_vertices {v w : String} (hv : v ∈ k.vertices) (hw : w ∈ l.vertices) : v ≠ w := by
  rintro rfl
  exact h.unshared v (h.left.representative v hv).1 (h.right.representative v hw).1

theorem glued_left (hres : Resolves k l m) (hone : OneToOne (classPairs k l m)) {v w : String}
    (hv : v ∈ k.vertices) (hw : w ∈ k.vertices) (hvw : Glued k l m v w) : v = w := by
  have hmeet := h.meeting_eq hres hone hvw
  rwa [h.meeting_left_vertex hv, h.meeting_left_vertex hw] at hmeet

theorem glued_right (hres : Resolves k l m) (hone : OneToOne (classPairs k l m)) {v w : String}
    (hv : v ∈ l.vertices) (hw : w ∈ l.vertices) (hvw : Glued k l m v w) : v = w := by
  have hmeet := h.meeting_eq hres hone hvw
  rcases h.meeting_right_vertex hone hv with hpv | hsv <;>
    rcases h.meeting_right_vertex hone hw with hpw | hsw
  · exact (hone _ hpv _ hpw).1 hmeet
  · exact absurd (hmeet.trans hsw) (h.ne_of_vertices (h.mem_vertices_of_pair hres hpv).1 hw)
  · exact absurd (hmeet.symm.trans hsv) (h.ne_of_vertices (h.mem_vertices_of_pair hres hpw).1 hv)
  · exact hsv.symm.trans (hmeet.trans hsw)

theorem glued_across (hres : Resolves k l m) (hone : OneToOne (classPairs k l m)) {v w : String}
    (hv : v ∈ k.vertices) (hw : w ∈ l.vertices) :
    Glued k l m v w ↔ (v, w) ∈ classPairs k l m := by
  constructor
  · intro hvw
    have hmeet := h.meeting_eq hres hone hvw
    rw [h.meeting_left_vertex hv] at hmeet
    rcases h.meeting_right_vertex hone hw with hpw | hsw
    · rwa [← hmeet] at hpw
    · exact absurd (hmeet.trans hsw) (h.ne_of_vertices hv hw)
  · intro hvw
    obtain ⟨e, he, hev⟩ := List.mem_map.1 hvw
    obtain ⟨rfl, rfl⟩ := Prod.mk.inj hev
    have hfrom : Glued k l m (k.partition.root e.1) e.1 := .rel _ _ (Or.inl
      ((Partition.same_iff h.left_forest).2 (Partition.root_root h.left_forest _)))
    have hto : Glued k l m (l.partition.root e.2) e.2 := .rel _ _ (Or.inr (Or.inl
      ((Partition.same_iff h.right_forest).2 (Partition.root_root h.right_forest _))))
    exact (hfrom.trans _ _ _ (.rel _ _ (Or.inr (Or.inr he)))).trans _ _ _ hto.symm

theorem not_degenerates (hres : Resolves k l m) (hone : OneToOne (classPairs k l m)) :
    ¬ Degenerates k l m := by
  rintro ⟨s, hs, i, j, v, w, hij, hv, hw, hvw⟩
  have hsame : s.Nodup ∧ v = w := by
    have hvs := List.mem_of_getElem? hv
    have hws := List.mem_of_getElem? hw
    rcases List.mem_append.1 hs with hs | hs
    · exact ⟨h.left.simplex_nodup s hs, h.glued_left hres hone (mem_vertices.2 ⟨s, hs, hvs⟩)
        (mem_vertices.2 ⟨s, hs, hws⟩) hvw⟩
    · exact ⟨h.right.simplex_nodup s hs, h.glued_right hres hone (mem_vertices.2 ⟨s, hs, hvs⟩)
        (mem_vertices.2 ⟨s, hs, hws⟩) hvw⟩
  obtain ⟨hnodup, rfl⟩ := hsame
  have hi : i < s.length := (List.getElem?_eq_some_iff.1 hv).1
  exact Nat.ne_of_lt hij ((List.getElem?_inj hi hnodup).1 (hv.trans hw.symm))

theorem root_injOn_left (hres : Resolves k l m) (hone : OneToOne (classPairs k l m)) {r : Complex}
    (hr : IsGluing k l m r) : Set.InjOn r.partition.root {v | v ∈ k.vertices} :=
  fun v hv w hw hvw => h.glued_left hres hone hv hw ((hr.root_eq_iff v w).1 hvw)

theorem root_injOn_right (hres : Resolves k l m) (hone : OneToOne (classPairs k l m)) {r : Complex}
    (hr : IsGluing k l m r) : Set.InjOn r.partition.root {v | v ∈ l.vertices} :=
  fun v hv w hw hvw => h.glued_right hres hone hv hw ((hr.root_eq_iff v w).1 hvw)

/-- The vertices of a gluing are those of both complexes, less one for each pair of classes. -/
theorem vertexCount_add (hres : Resolves k l m) (hone : OneToOne (classPairs k l m)) {r : Complex}
    (hr : IsGluing k l m r) :
    r.vertexCount + (distinct (classPairs k l m)).length = k.vertexCount + l.vertexCount := by
  have hunion : r.vertices.toFinset = k.vertices.toFinset.image r.partition.root ∪
      l.vertices.toFinset.image r.partition.root := by
    ext v
    simp only [List.mem_toFinset, Finset.mem_union, Finset.mem_image, hr.mem_vertices_iff,
      or_and_right, exists_or]
  have hinter : k.vertices.toFinset.image r.partition.root ∩
      l.vertices.toFinset.image r.partition.root =
      (distinct (classPairs k l m)).toFinset.image fun e => r.partition.root e.1 := by
    ext v
    simp only [Finset.mem_inter, Finset.mem_image, List.mem_toFinset, mem_distinct]
    constructor
    · rintro ⟨⟨x, hx, rfl⟩, y, hy, hyx⟩
      have hglued := (hr.root_eq_iff x y).1 hyx.symm
      exact ⟨(x, y), (h.glued_across hres hone hx hy).1 hglued, rfl⟩
    · rintro ⟨e, he, rfl⟩
      obtain ⟨hx, hy⟩ := h.mem_vertices_of_pair hres he
      have hglued := (h.glued_across hres hone hx hy).2 he
      exact ⟨⟨e.1, hx, rfl⟩, e.2, hy, ((hr.root_eq_iff e.1 e.2).2 hglued).symm⟩
  have hpairs : ((distinct (classPairs k l m)).toFinset.image fun e =>
      r.partition.root e.1).card = (distinct (classPairs k l m)).length := by
    rw [Finset.card_image_of_injOn, List.toFinset_card_of_nodup (nodup_distinct _)]
    intro e he d hd hed
    have he' : e ∈ classPairs k l m := by simpa using he
    have hd' : d ∈ classPairs k l m := by simpa using hd
    have hfst : e.1 = d.1 := h.root_injOn_left hres hone hr
      (h.mem_vertices_of_pair hres he').1 (h.mem_vertices_of_pair hres hd').1 hed
    exact Prod.ext hfst ((hone e he' d hd').1 hfst)
  -- the two images cover the vertices and meet in one vertex for each pair
  rw [← card_vertices r, hunion, ← hpairs, ← hinter, Finset.card_union_add_card_inter,
    card_image_vertices (h.root_injOn_left hres hone hr),
    card_image_vertices (h.root_injOn_right hres hone hr)]

end Apart

/-- Gluing canonical complexes without a common name never shrinks a simplex: it succeeds exactly if
the mapping names vertices and pairs classes one to one. The result has as many vertices as both
complexes together less the number of pairs of classes, and keeps the vertices of each apart. -/
theorem glue_of_disjoint (k l : Complex) (hk : k.partition.Forest) (hl : l.partition.Forest)
    (hkc : k.Canonical) (hlc : l.Canonical)
    (hkl : ∀ x ∈ k.partition.nodes, x ∉ l.partition.nodes) (m : Mapping) :
    ¬ FailsWith (k.glue l m) .degenerateSimplex ∧
    ((k.glue l m).isOk ↔ Resolves k l m ∧ OneToOne (classPairs k l m)) ∧
    ∀ r, k.glue l m = .ok r →
      r.vertexCount + (distinct (classPairs k l m)).length = k.vertexCount + l.vertexCount ∧
      Set.InjOn r.partition.root {v | v ∈ k.vertices} ∧
      Set.InjOn r.partition.root {v | v ∈ l.vertices} := by
  have h : Apart k l := ⟨hk, hl, hkc, hlc, hkl⟩
  rcases glue_cases hk hl m with ⟨hres, f, heq, hcode⟩ | ⟨hres, hone, f, heq, hcode⟩ |
    ⟨hres, hone, hdeg, -⟩ | ⟨hres, hone, -, r, heq, hr⟩
  · simp [FailsWith, heq, hcode, hres, Except.isOk, Except.toBool]
  · simp [FailsWith, heq, hcode, hres, hone, Except.isOk, Except.toBool]
  · exact absurd hdeg (h.not_degenerates hres hone)
  · rw [heq]
    refine ⟨by simp [FailsWith], iff_of_true rfl ⟨hres, hone⟩, ?_⟩
    intro q hq
    obtain rfl := Except.ok.inj hq
    exact ⟨h.vertexCount_add hres hone hr, h.root_injOn_left hres hone hr,
      h.root_injOn_right hres hone hr⟩

/-- An edge closes a path of two edges to a circle; one end of the path is mapped under both of its
names. -/
theorem glue_of_disjoint_circle :
    let k := ofSimplices [["a", "b"], ["b", "c"]]
      ((Partition.empty.addAll ["a", "b", "c"]).union "c" "d").2
    let l := ofSimplices [["x", "y"]] (Partition.empty.addAll ["x", "y"])
    ∃ r, k.glue l [("c", "x"), ("d", "x"), ("a", "y")] = .ok r ∧ r.vertexCount = 3 ∧
      Set.InjOn r.partition.root {v | v ∈ k.vertices} ∧
      Set.InjOn r.partition.root {v | v ∈ l.vertices} := by
  intro k l
  have hk : k.partition.Forest :=
    (Partition.union_joined (Partition.addAll_forest Partition.empty_forest _) "c" "d").1.forest
  have hl : l.partition.Forest := Partition.addAll_forest Partition.empty_forest _
  have hkc : k.Canonical :=
    ⟨by decide +kernel, by decide +kernel, by decide +kernel, by decide +kernel⟩
  have hlc : l.Canonical :=
    ⟨by decide +kernel, by decide +kernel, by decide +kernel, by decide +kernel⟩
  have hkl : ∀ x ∈ k.partition.nodes, x ∉ l.partition.nodes := by decide +kernel
  have hm : Resolves k l [("c", "x"), ("d", "x"), ("a", "y")] ∧
      OneToOne (classPairs k l [("c", "x"), ("d", "x"), ("a", "y")]) := by decide +kernel
  have hcount : k.vertexCount = 3 ∧ l.vertexCount = 2 ∧
      (distinct (classPairs k l [("c", "x"), ("d", "x"), ("a", "y")])).length = 2 := by
    decide +kernel
  clear_value k l
  obtain ⟨-, hok, hbuilt⟩ :=
    glue_of_disjoint k l hk hl hkc hlc hkl [("c", "x"), ("d", "x"), ("a", "y")]
  obtain ⟨r, hr⟩ := exists_of_isOk (hok.2 hm)
  obtain ⟨hsum, hleft, hright⟩ := hbuilt r hr
  exact ⟨r, hr, by omega, hleft, hright⟩

end SimplexScript.Complex
