import Mathlib.Data.Finset.Range
import Mathlib.Data.Nat.Bitwise
import SimplexScript.Proofs.Homology.Faces

/-!
# The order of faces

The faces of a simplex are listed as binary numbers count: the places of the
vertices of the `m`-th face are the bits of `m`. Each further vertex doubles
the list, with the empty face before it, just as each further bit doubles the
numbers.
-/

set_option autoImplicit false

namespace SimplexScript.Simplex

variable {α : Type}

def atPlaces (s : List α) (chosen : Nat → Bool) : List α :=
  (s.zipIdx.filter fun e => chosen e.2).map Prod.fst

theorem atPlaces_concat (s : List α) (v : α) (chosen : Nat → Bool) :
    atPlaces (s ++ [v]) chosen = atPlaces s chosen ++ if chosen s.length then [v] else [] := by
  rw [atPlaces, List.zipIdx_append, List.filter_append, List.map_append, atPlaces]
  congr 1
  by_cases h : chosen s.length = true <;> simp [h]

theorem atPlaces_congr {s : List α} {p q : Nat → Bool} (h : ∀ i < s.length, p i = q i) :
    atPlaces s p = atPlaces s q := by
  rw [atPlaces, atPlaces]
  congr 1
  apply List.filter_congr
  intro e he
  exact h e.2 (by simpa using List.snd_lt_of_mem_zipIdx he)

/-- With the empty face before them, the faces with one vertex more are those without it, and then
the same faces again with the vertex. -/
theorem nil_cons_extend (faces : List (List α)) (v : α) :
    [] :: extend faces v = ([] :: faces) ++ ([] :: faces).map fun face => face ++ [v] := by
  simp [extend]

theorem nil_cons_subfaces (s : List α) :
    [] :: subfaces s = (List.range (2 ^ s.length)).map fun m => atPlaces s m.testBit := by
  induction s using List.reverseRecOn with
  | nil => rfl
  | append_singleton s v ih =>
    rw [subfaces_concat, nil_cons_extend, ih, List.length_append, List.length_singleton,
      Nat.pow_succ, Nat.mul_two, List.range_add, List.map_append, List.map_map, List.map_map]
    congr 1
    · -- numbers below the power have no bit at the new place
      apply List.map_congr_left
      intro m hm
      rw [atPlaces_concat, Nat.testBit_lt_two_pow (List.mem_range.1 hm)]
      simp
    · -- and adding the power sets that bit and no other
      apply List.map_congr_left
      intro m hm
      have hlow : atPlaces s (2 ^ s.length + m).testBit = atPlaces s m.testBit :=
        atPlaces_congr fun i hi => Nat.testBit_two_pow_add_gt hi m
      simp only [Function.comp_apply]
      rw [atPlaces_concat, hlow, Nat.testBit_two_pow_add_eq,
        Nat.testBit_lt_two_pow (List.mem_range.1 hm)]
      simp

theorem length_subfaces (s : List α) : (subfaces s).length = 2 ^ s.length - 1 := by
  have h := congrArg List.length (nil_cons_subfaces s)
  simp only [List.length_cons, List.length_map, List.length_range] at h
  omega

theorem getElem?_subfaces (s : List α) {m : Nat} (hpos : 1 ≤ m) (hm : m < 2 ^ s.length) :
    (subfaces s)[m - 1]? = some (atPlaces s m.testBit) := by
  obtain ⟨k, rfl⟩ : ∃ k, m = k + 1 := ⟨m - 1, by omega⟩
  rw [Nat.add_sub_cancel, ← List.getElem?_cons_succ (a := []), nil_cons_subfaces,
    List.getElem?_map, List.getElem?_range hm, Option.map_some]

theorem existsUnique_bits {n : Nat} {P : Finset Nat} (hP : P ⊆ Finset.range n)
    (hne : P.Nonempty) : ∃! m, (1 ≤ m ∧ m ≤ 2 ^ n - 1) ∧ ∀ i, i ∈ P ↔ m.testBit i = true := by
  let m := Nat.ofBits fun i : Fin n => decide ((i : Nat) ∈ P)
  have hbits : ∀ i, i ∈ P ↔ m.testBit i = true := by
    intro i
    by_cases hi : i < n
    · simp [m, hi]
    · have hout : i ∉ P := fun hmem => hi (Finset.mem_range.1 (hP hmem))
      simp [m, hout, Nat.testBit_ofBits_ge _ i (Nat.le_of_not_lt hi)]
  have hlt : m < 2 ^ n := Nat.ofBits_lt_two_pow _
  have hpos : m ≠ 0 := by
    intro hzero
    obtain ⟨i, hi⟩ := hne
    simpa [hzero] using (hbits i).1 hi
  refine ⟨m, ⟨by omega, hbits⟩, ?_⟩
  rintro l ⟨-, hl⟩
  apply Nat.eq_of_testBit_eq
  intro i
  rw [Bool.eq_iff_iff, ← hl, hbits]

theorem exists_bit_ge {l m i : Nat} (h : l ≤ m) (hi : l.testBit i = true) :
    ∃ j, i ≤ j ∧ m.testBit j = true := by
  obtain ⟨j, hj, hbit⟩ :=
    Nat.exists_ge_and_testBit_of_ge_two_pow ((Nat.ge_two_pow_of_testBit hi).trans h)
  exact ⟨j, hj, hbit⟩

theorem pairwise_subfaces_concat {s : Simplex} {v : String} (hv : v ∉ s) :
    (subfaces (s ++ [v])).Pairwise fun t u => v ∈ t → v ∈ u := by
  have hbefore : ∀ t ∈ subfaces s, v ∉ t := fun t ht hmem =>
    hv ((mem_subfaces.1 ht).2.subset hmem)
  have hafter : ∀ u ∈ [v] :: (subfaces s).map (fun face => face ++ [v]), v ∈ u := by
    intro u hu
    rcases List.mem_cons.1 hu with rfl | hu
    · exact List.mem_singleton_self v
    · obtain ⟨face, -, rfl⟩ := List.mem_map.1 hu
      exact List.mem_append_right _ (List.mem_singleton_self v)
  rw [subfaces_concat, extend, List.pairwise_append]
  refine ⟨?_, ?_, fun t _ u hu _ => hafter u hu⟩
  · exact List.pairwise_of_forall_mem_list fun t ht u _ hmem => absurd hmem (hbefore t ht)
  · exact List.pairwise_of_forall_mem_list fun t _ u hu _ => hafter u hu

/-- The faces of `n` vertices are `2 ^ n - 1`, and the vertices of the `m`-th of them stand at the
places of the bits of `m`. So every non-empty set of places is that of exactly one face. A face that
uses some place is followed only by faces that use it or a later one; so the faces with the last
vertex follow all those without it. -/
theorem faces_count_in_binary (s : Simplex) (hs : s.length ≤ 20) :
    ∃ listed, faces s = .ok listed ∧ listed.length = 2 ^ s.length - 1 ∧
      (∀ m, 1 ≤ m → m ≤ 2 ^ s.length - 1 → listed[m - 1]? = some (atPlaces s m.testBit)) ∧
      (∀ P ⊆ Finset.range s.length, P.Nonempty →
        ∃! m, (1 ≤ m ∧ m ≤ listed.length) ∧ ∀ i, i ∈ P ↔ m.testBit i = true) ∧
      (∀ l m, l ≤ m → m ≤ listed.length → ∀ i, l.testBit i = true →
        ∃ j, i ≤ j ∧ j < s.length ∧ m.testBit j = true) ∧
      (∀ v, s.getLast? = some v → v ∉ s.dropLast →
        listed.Pairwise fun t u => v ∈ t → v ∈ u) := by
  have hlength := length_subfaces s
  have hpow := Nat.two_pow_pos s.length
  have hlisted : faces s = .ok (subfaces s) := if_neg (Nat.not_lt.2 hs)
  refine ⟨subfaces s, hlisted, hlength, ?_, ?_, ?_, ?_⟩
  · intro m hpos hm
    exact getElem?_subfaces s hpos (by omega)
  · intro P hP hne
    rw [hlength]
    exact existsUnique_bits hP hne
  · intro l m hlm hm i hi
    obtain ⟨j, hij, hbit⟩ := exists_bit_ge hlm hi
    refine ⟨j, hij, ?_, hbit⟩
    have hle := Nat.ge_two_pow_of_testBit hbit
    exact (Nat.pow_lt_pow_iff_right Nat.one_lt_two).1 (by omega)
  · intro v hlast hv
    have hsplit : s = s.dropLast ++ [v] := by
      rw [List.dropLast_append_getLast? v hlast]
    rw [hsplit]
    exact pairwise_subfaces_concat hv

/-- Four vertices, two of them the same: the tenth face has the places 1 and 3, as 10 is 2 + 8. -/
theorem faces_count_in_binary_repeated :
    let s := ["d", "a", "a", "b"]
    s.length ≤ 20 ∧ ∃ listed, faces s = .ok listed ∧ listed.length = 15 ∧
      listed[9]? = some ["a", "b"] ∧
      (∃! m, (1 ≤ m ∧ m ≤ listed.length) ∧
        ∀ i, i ∈ ({1, 3} : Finset Nat) ↔ m.testBit i = true) ∧
      (∃ j, 2 ≤ j ∧ j < 4 ∧ (10 : Nat).testBit j = true) ∧
      listed.Pairwise fun t u => "b" ∈ t → "b" ∈ u := by
  intro s
  have hs : s.length ≤ 20 := by decide
  obtain ⟨listed, hlisted, hlength, hbits, honce, hlater, hlast⟩ := faces_count_in_binary s hs
  refine ⟨hs, listed, hlisted, hlength, ?_, ?_, ?_, ?_⟩
  · exact hbits 10 (by decide) (by decide)
  · exact honce {1, 3} (by decide) (by decide)
  · exact hlater 4 10 (by decide) (by rw [hlength]; decide) 2 (by decide)
  · exact hlast "b" rfl (by decide)

end SimplexScript.Simplex
