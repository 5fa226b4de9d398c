import Mathlib.Data.List.Induction
import SimplexScript.Homology
import SimplexScript.Proofs.Listing
import SimplexScript.Proofs.Simplex.Key

/-!
# The faces of a complex

The faces of a simplex are its non-empty subsequences. Those of a complex are
listed once each, up to the order of vertices, so deleting a vertex of a face
leaves a face that is listed too, unless it leaves nothing.
-/

set_option autoImplicit false

namespace SimplexScript

theorem Simplex.subfaces_concat {α : Type} (s : List α) (v : α) :
    subfaces (s ++ [v]) = extend (subfaces s) v := by
  simp [subfaces]

theorem Simplex.mem_subfaces {s t : Simplex} : t ∈ subfaces s ↔ t ≠ [] ∧ t.Sublist s := by
  induction s using List.reverseRecOn generalizing t with
  | nil => simp [subfaces]
  | append_singleton s v ih =>
    rw [subfaces_concat, extend, List.mem_append, List.mem_cons, List.mem_map, List.sublist_append_iff]
    constructor
    · rintro (h | rfl | ⟨u, hu, rfl⟩)
      · obtain ⟨hne, hsub⟩ := ih.1 h
        exact ⟨hne, t, [], by simp, hsub, List.nil_sublist _⟩
      · exact ⟨by simp, [], [v], rfl, List.nil_sublist _, List.Sublist.refl _⟩
      · exact ⟨by simp, u, [v], rfl, (ih.1 hu).2, List.Sublist.refl _⟩
    · rintro ⟨hne, l, r, rfl, hl, hr⟩
      by_cases hl0 : l = []
      · subst hl0
        rcases List.sublist_singleton.1 hr with rfl | rfl
        · exact absurd rfl hne
        · exact Or.inr (Or.inl rfl)
      · rcases List.sublist_singleton.1 hr with rfl | rfl
        · rw [List.append_nil]
          exact Or.inl (ih.2 ⟨hl0, hl⟩)
        · exact Or.inr (Or.inr ⟨l, ih.2 ⟨hl0, hl⟩, rfl⟩)

namespace Complex

theorem le_foldl_raise (ss : List Simplex) (d : Int) :
    d ≤ ss.foldl raise d ∧ ∀ s ∈ ss, (s.length : Int) - 1 ≤ ss.foldl raise d := by
  induction ss generalizing d with
  | nil => simp
  | cons s ss ih =>
    obtain ⟨hle, hall⟩ := ih (raise d s)
    rw [List.foldl_cons]
    constructor
    · exact Int.le_trans (Int.le_max_left d _) hle
    · intro t ht
      rcases List.mem_cons.1 ht with rfl | ht
      · exact Int.le_trans (Int.le_max_right d _) hle
      · exact hall t ht

theorem foldl_raise_attained (ss : List Simplex) (d : Int) :
    ss.foldl raise d = d ∨ ∃ s ∈ ss, ss.foldl raise d = (s.length : Int) - 1 := by
  induction ss generalizing d with
  | nil => exact Or.inl rfl
  | cons s ss ih =>
    rw [List.foldl_cons]
    rcases ih (raise d s) with h | ⟨t, ht, h⟩
    · rcases Int.le_total d ((s.length : Int) - 1) with hle | hle
      · exact Or.inr ⟨s, by simp, h.trans (Int.max_eq_right hle)⟩
      · exact Or.inl (h.trans (Int.max_eq_left hle))
    · exact Or.inr ⟨t, by simp [ht], h⟩

theorem neg_one_le_dimension (c : Complex) : -1 ≤ c.dimension :=
  (le_foldl_raise c.maximal (-1)).1

theorem le_dimension {c : Complex} {s : Simplex} (hs : s ∈ c.maximal) :
    (s.length : Int) - 1 ≤ c.dimension :=
  (le_foldl_raise c.maximal (-1)).2 s hs

end Complex

namespace Homology

/-- A listing of faces, each once, with the facets of each. -/
structure Closed (faces : List Simplex) : Prop where
  ne_nil : ∀ s ∈ faces, s ≠ []
  apart : faces.Pairwise fun s t => ¬ s.Perm t
  facet : ∀ s ∈ faces, ∀ t ∈ Simplex.facets s, t ≠ [] → ∃ u ∈ faces, u.Perm t

theorem exists_simplices {c : Complex} (h : ∀ s ∈ c.maximal, s.length ≤ Simplex.maxVertices) :
    c.simplices = .ok (distinctBy Simplex.key (c.maximal.flatMap Simplex.subfaces)) := by
  have hnone : c.maximal.find? (fun s => decide (Simplex.maxVertices < s.length)) = none := by
    rw [List.find?_eq_none]
    intro s hs
    simpa using h s hs
  rw [Complex.simplices, hnone]

theorem degreeFaces_eq {c : Complex} {all : List Simplex} (h : c.simplices = .ok all) (k : Int) :
    degreeFaces c k = .ok (ofDegree k all) := by
  rw [degreeFaces, h]
  rfl

theorem mem_faces {ss : List Simplex} {t : Simplex}
    (h : t ∈ distinctBy Simplex.key (ss.flatMap Simplex.subfaces)) :
    t ≠ [] ∧ ∃ s ∈ ss, t.Sublist s := by
  obtain ⟨s, hs, ht⟩ := List.mem_flatMap.1 (mem_of_mem_distinctBy h)
  obtain ⟨hne, hsub⟩ := Simplex.mem_subfaces.1 ht
  exact ⟨hne, s, hs, hsub⟩

theorem closed_faces (ss : List Simplex) :
    Closed (distinctBy Simplex.key (ss.flatMap Simplex.subfaces)) where
  ne_nil t ht := (mem_faces ht).1
  apart := (pairwise_distinctBy _).imp fun h hp => h (Simplex.key_eq_key.2 hp)
  facet t ht u hu hne := by
    obtain ⟨-, s, hs, hsub⟩ := mem_faces ht
    obtain ⟨i, -, rfl⟩ := List.mem_map.1 hu
    have hface : t.eraseIdx i ∈ Simplex.subfaces s :=
      Simplex.mem_subfaces.2 ⟨hne, (List.eraseIdx_sublist t i).trans hsub⟩
    obtain ⟨w, hw, hkey⟩ : ∃ w ∈ distinctBy Simplex.key (ss.flatMap Simplex.subfaces),
        Simplex.key w = Simplex.key (t.eraseIdx i) :=
      exists_mem_distinctBy (List.mem_flatMap.2 ⟨s, hs, hface⟩)
    exact ⟨w, hw, Simplex.key_eq_key.1 hkey⟩

theorem Closed.filter_degree {faces : List Simplex} (h : Closed faces) (k : Nat) :
    faces.filter (fun s => decide (s.length - 1 = k)) = ofDegree k faces := by
  apply List.filter_congr
  intro s hs
  have hpos := List.length_pos_iff.2 (h.ne_nil s hs)
  exact decide_eq_decide.2 ⟨fun h => by omega, fun h => by omega⟩

theorem length_face_le {c : Complex} {t : Simplex}
    (h : t ∈ distinctBy Simplex.key (c.maximal.flatMap Simplex.subfaces)) :
    (t.length : Int) ≤ c.dimension + 1 := by
  obtain ⟨-, s, hs, hsub⟩ := mem_faces h
  have hs' : (s.length : Int) - 1 ≤ c.dimension := Complex.le_dimension hs
  have hlen := hsub.length_le
  omega

end Homology

end SimplexScript
