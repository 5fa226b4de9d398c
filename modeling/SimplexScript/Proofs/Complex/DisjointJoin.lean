import SimplexScript.Proofs.Complex.Join

/-!
# Joining complexes without a common name

Such a join always exists, and the simplices it spans are those of its
operands one after the other. A point with a new name is the smallest case. A
literal is the join of the literals over two parts of its vertices.
-/

set_option autoImplicit false

namespace SimplexScript.Complex

theorem maximal_ofSimplices_single (s : Simplex) (p : Partition String) :
    (ofSimplices [s] p).maximal = [s] := rfl

theorem mem_maximal_point {v : String} {t : Simplex} : t ∈ (point v).maximal ↔ t = [v] := by
  rw [point, maximal_ofSimplices_single, List.mem_singleton]

section Apart

variable {k l r : Complex}

theorem distinct_append_of_apart (hk : k.Canonical) (hl : l.Canonical)
    (hkl : ∀ v ∈ k.vertices, v ∉ l.vertices) {s t : Simplex} (hs : s ∈ k.maximal)
    (ht : t ∈ l.maximal) : distinct (s ++ t) = s ++ t := by
  apply distinct_eq_self
  refine (hk.simplex_nodup s hs).append (hl.simplex_nodup t ht) ?_
  intro v hvs hvt
  exact hkl v (mem_vertices.2 ⟨s, hs, hvs⟩) (mem_vertices.2 ⟨t, ht, hvt⟩)

theorem exists_join_of_apart (hkf : k.partition.Forest) (hk : k.Proper) (hlf : l.partition.Forest)
    (hl : l.Proper) (hkl : ∀ x ∈ k.partition.nodes, x ∉ l.partition.nodes) :
    ∃ r, k.join l = .ok r ∧ IsJoin k l r := by
  rcases join_cases hkf hk hlf hl with hr | ⟨hnot, -⟩
  · exact hr
  · exact absurd (fun x hxk hxl => absurd hxl (hkl x hxk)) hnot

end Apart

theorem firstRepeated_eq_none {vs seen : List String} (h : vs.Nodup) (hseen : ∀ v ∈ vs, v ∉ seen) :
    firstRepeated seen vs = none := by
  induction vs generalizing seen with
  | nil => rfl
  | cons v vs ih =>
    obtain ⟨hv, hvs⟩ := List.nodup_cons.1 h
    rw [firstRepeated, if_neg (hseen v (by simp))]
    apply ih hvs
    intro w hw hmem
    rcases List.mem_cons.1 hmem with rfl | hmem
    · exact hv hw
    · exact hseen w (by simp [hw]) hmem

def literal (vs : List String) : Complex := ofSimplices [vs] (Partition.empty.addAll vs)

theorem ofVertices_of_nodup {vs : List String} (hne : vs ≠ []) (h : vs.Nodup) :
    ofVertices vs = .ok (literal vs) := by
  rw [ofVertices, firstRepeated_eq_none h (by simp), if_neg hne, literal]

theorem forest_literal (vs : List String) : (literal vs).partition.Forest :=
  Partition.addAll_forest Partition.empty_forest vs

theorem proper_literal {vs : List String} (hne : vs ≠ []) (h : vs.Nodup) : (literal vs).Proper :=
  proper_single hne h

/-- A literal is the join of the literals over two parts of its vertices. -/
theorem isJoin_literal {vs ws : List String} (hne : vs ≠ []) (h : (vs ++ ws).Nodup) :
    IsJoin (literal vs) (literal ws) (literal (vs ++ ws)) where
  forest := forest_literal _
  proper := proper_literal (by simp [hne]) h
  nodes x := by
    simp only [literal, ofSimplices, mem_nodes_literal, List.mem_append]
  left x _ := (Partition.root_empty_addAll _ x).trans (Partition.root_empty_addAll _ x).symm
  right x _ := (Partition.root_empty_addAll _ x).trans (Partition.root_empty_addAll _ x).symm
  span s hs t ht := by
    obtain rfl := List.mem_singleton.1 hs
    obtain rfl := List.mem_singleton.1 ht
    rw [distinct_eq_self h]
    exact ⟨s ++ t, List.mem_singleton_self _, List.Perm.refl _⟩
  source u hu := by
    obtain rfl := List.mem_singleton.1 hu
    refine ⟨vs, List.mem_singleton_self _, ws, List.mem_singleton_self _, ?_⟩
    rw [distinct_eq_self h]

section Point

variable {c : Complex} {v : String}

theorem apart_point (hc : c.Canonical) (hv : v ∉ c.partition.nodes) :
    ∀ w ∈ c.vertices, w ∉ (point v).vertices := by
  intro w hw hwv
  obtain ⟨t, ht, hwt⟩ := mem_vertices.1 hwv
  rw [mem_maximal_point.1 ht, List.mem_singleton] at hwt
  exact hv (hwt ▸ (hc.representative w hw).1)

theorem exists_join_point (hf : c.partition.Forest) (hc : c.Proper)
    (hv : v ∉ c.partition.nodes) : ∃ r, c.join (point v) = .ok r ∧ IsJoin c (point v) r := by
  apply exists_join_of_apart hf hc (forest_literal [v]) (proper_point v)
  intro x hx hxv
  have hxv' : x ∈ [v] := mem_nodes_literal.1 hxv
  rw [List.mem_singleton.1 hxv'] at hx
  exact hv hx

end Point

end SimplexScript.Complex
