import Mathlib.Algebra.BigOperators.Group.List.Basic
import Mathlib.Algebra.BigOperators.Ring.Finset
import SimplexScript.Proofs.Homology.Counts

/-!
# The Euler characteristic

Faces are counted with alternating signs. Gathered by degree they give the
same count, in whatever order the degrees appear. What the boundaries of a
degree take from it they take from the next degree with the other sign, so
only the Betti numbers are left of the alternating sum.
-/

set_option autoImplicit false

namespace SimplexScript

section Gathered

variable {α κ : Type} [DecidableEq κ] (key : α → κ) (g : κ → Int)

theorem sum_length_filter (keys : Finset κ) (xs : List α) (h : ∀ x ∈ xs, key x ∈ keys) :
    ∑ k ∈ keys, g k * ((xs.filter fun x => decide (key x = k)).length : Int) =
      (xs.map fun x => g (key x)).sum := by
  induction xs with
  | nil => simp
  | cons x xs ih =>
    have hlength : ∀ k, (((x :: xs).filter fun x => decide (key x = k)).length : Int) =
        (if key x = k then 1 else 0) + ((xs.filter fun x => decide (key x = k)).length : Int) := by
      intro k
      by_cases hk : key x = k
      · simp [hk, add_comm]
      · simp [hk]
    -- the new element adds to the term of its own key only
    simp only [hlength, mul_add, Finset.sum_add_distrib, mul_ite, mul_one, mul_zero,
      Finset.sum_ite_eq, h x (by simp), if_true]
    rw [ih fun y hy => h y (by simp [hy]), List.map_cons, List.sum_cons]

theorem Table.sum_groupBy (xs : List α) :
    ((Table.groupBy key xs).map fun e => g e.1 * (e.2.length : Int)).sum =
      (xs.map fun x => g (key x)).sum := by
  rw [← sum_length_filter key g (distinct (xs.map key)).toFinset xs,
    List.sum_toFinset _ (nodup_distinct _), Table.groupBy, List.map_map]
  · rfl
  · intro x hx
    simpa using ⟨x, hx, rfl⟩

end Gathered

namespace Homology

theorem neg_one_pow_eq_sign (n : Nat) : (-1 : Int) ^ n = if (n + 1) % 2 = 1 then 1 else -1 := by
  induction n with
  | zero => rfl
  | succ n ih =>
    rw [pow_succ, ih]
    by_cases h : (n + 1) % 2 = 1
    · rw [if_pos h, if_neg (by omega), one_mul]
    · rw [if_neg h, if_pos (by omega), neg_one_mul, neg_neg]

theorem foldl_sign {ss : List Simplex} (h : ∀ s ∈ ss, s ≠ []) (chi : Int) :
    ss.foldl (fun chi s => if s.length % 2 = 1 then chi + 1 else chi - 1) chi =
      chi + (ss.map fun s => (-1 : Int) ^ (s.length - 1)).sum := by
  induction ss generalizing chi with
  | nil => simp
  | cons s ss ih =>
    have hpos := List.length_pos_iff.2 (h s (by simp))
    rw [List.foldl_cons, ih fun t ht => h t (by simp [ht]), List.map_cons, List.sum_cons,
      neg_one_pow_eq_sign, Nat.sub_add_cancel hpos]
    split <;> omega

theorem eulerCharacteristic_eq_sum {c : Complex} {faces : List Simplex}
    (hfaces : c.simplices = .ok faces) (hne : ∀ s ∈ faces, s ≠ []) :
    eulerCharacteristic c = .ok (faces.map fun s => (-1 : Int) ^ (s.length - 1)).sum := by
  rw [eulerCharacteristic, hfaces]
  show Except.ok _ = Except.ok _
  rw [foldl_sign hne, zero_add]

theorem eulerCharacteristic_eq_skeleton {c : Complex}
    (hc : ∀ s ∈ c.maximal, s.length ≤ Simplex.maxVertices) :
    ∃ table, skeleton c = .ok table ∧ eulerCharacteristic c =
      .ok (table.map fun e => (-1 : Int) ^ e.1 * (e.2.length : Int)).sum := by
  have hfaces := exists_simplices hc
  refine ⟨_, by rw [skeleton, hfaces]; rfl, ?_⟩
  rw [eulerCharacteristic_eq_sum hfaces (closed_faces c.maximal).ne_nil,
    Table.sum_groupBy _ fun k => (-1 : Int) ^ k]

theorem eulerCharacteristic_eq_faceCount {c : Complex}
    (hc : ∀ s ∈ c.maximal, s.length ≤ Simplex.maxVertices) :
    eulerCharacteristic c =
      .ok (∑ k ∈ Finset.range (c.dimension + 1).toNat, (-1 : Int) ^ k * faceCount c k) := by
  have hne := (closed_faces c.maximal).ne_nil
  rw [eulerCharacteristic_eq_sum (exists_simplices hc) hne,
    ← sum_length_filter (fun s : Simplex => s.length - 1) (fun k => (-1 : Int) ^ k)
      (Finset.range (c.dimension + 1).toNat)]
  · simp only [(closed_faces c.maximal).filter_degree, length_ofDegree]
  · intro s hs
    have hpos := List.length_pos_iff.2 (hne s hs)
    have hle := length_face_le hs
    rw [Finset.mem_range]
    omega

theorem sum_alternating_neighbours (r : Nat → Int) (n : Nat) :
    ∑ k ∈ Finset.range n, (-1 : Int) ^ k * (r k + r (k + 1)) = r 0 - (-1 : Int) ^ n * r n := by
  induction n with
  | zero => simp
  | succ n ih =>
    rw [Finset.sum_range_succ, ih, pow_succ]
    ring

/-- What boundaries take from the faces of a degree, with the sign of that degree, adds up to
nothing: no boundary is taken from degree zero or goes into the degree above the dimension. -/
theorem sum_faceCount_eq_sum_bettiCount (c : Complex) :
    ∑ k ∈ Finset.range (c.dimension + 1).toNat, (-1 : Int) ^ k * faceCount c k =
      ∑ k ∈ Finset.range (c.dimension + 1).toNat, (-1 : Int) ^ k * bettiCount c k := by
  have hsplit : ∀ k : Nat, (faceCount c k : Int) =
      bettiCount c k + ((boundaryDim c k : Int) + boundaryDim c ((k + 1 : Nat) : Int)) := by
    intro k
    have hsum := bettiCount_add c k
    push_cast
    omega
  have hfirst : boundaryDim c ((0 : Nat) : Int) = 0 := boundaryDim_eq_zero (Or.inl le_rfl)
  have hdim := c.neg_one_le_dimension
  have hlast : boundaryDim c ((c.dimension + 1).toNat : Int) = 0 :=
    boundaryDim_eq_zero (Or.inr (by omega))
  calc ∑ k ∈ Finset.range (c.dimension + 1).toNat, (-1 : Int) ^ k * faceCount c k
      = ∑ k ∈ Finset.range (c.dimension + 1).toNat, ((-1 : Int) ^ k * bettiCount c k +
          (-1 : Int) ^ k * ((boundaryDim c k : Int) + boundaryDim c ((k + 1 : Nat) : Int))) := by
        simp only [hsplit, mul_add]
    _ = ∑ k ∈ Finset.range (c.dimension + 1).toNat, (-1 : Int) ^ k * bettiCount c k := by
        rw [Finset.sum_add_distrib,
          sum_alternating_neighbours fun k : Nat => (boundaryDim c (k : Int) : Int), hfirst, hlast]
        simp

/-- The alternating count of faces, degree by degree in the order of the skeleton, is the alternating
sum of the Betti numbers. -/
theorem eulerCharacteristic_eq_alternating_betti (c : Complex)
    (hc : ∀ s ∈ c.maximal, s.length ≤ Simplex.maxVertices) :
    ∃ (chi : Int) (table : Table Nat (List Simplex)) (numbers : List (Nat × Int)),
      eulerCharacteristic c = .ok chi ∧
      skeleton c = .ok table ∧ chi = (table.map fun e => (-1) ^ e.1 * (e.2.length : Int)).sum ∧
      bettiNumbers c = .ok numbers ∧
      numbers.map Prod.fst = List.range (c.dimension + 1).toNat ∧
      (∀ e ∈ numbers, betti c (e.1 : Int) = .ok e.2) ∧
      chi = (numbers.map fun e => (-1) ^ e.1 * e.2).sum := by
  obtain ⟨table, htable, hskeleton⟩ := eulerCharacteristic_eq_skeleton hc
  have hfaces := eulerCharacteristic_eq_faceCount hc
  rw [sum_faceCount_eq_sum_bettiCount] at hfaces
  refine ⟨_, table, _, hfaces, htable, Except.ok.inj (hfaces.symm.trans hskeleton),
    bettiNumbers_eq hc, ?_, ?_, ?_⟩
  · rw [List.map_map]
    exact List.map_id _
  · intro e he
    obtain ⟨k, -, rfl⟩ := List.mem_map.1 he
    exact betti_eq hc k
  · rw [List.map_map, ← List.toFinset_range, List.sum_toFinset _ List.nodup_range]
    rfl

/-- A hollow triangle with an edge from a vertex to itself, and a point. -/
theorem eulerCharacteristic_eq_alternating_betti_loops :
    let c := Complex.ofSimplices [["a", "b"], ["b", "c"], ["a", "c"], ["c", "c"], ["d"]] .empty
    (∀ s ∈ c.maximal, s.length ≤ Simplex.maxVertices) ∧ eulerCharacteristic c = .ok 0 ∧
      ∃ numbers, bettiNumbers c = .ok numbers ∧ betti c 0 = .ok 2 ∧ betti c 1 = .ok 2 ∧
        numbers.map Prod.fst = [0, 1] ∧ (numbers.map fun e => (-1) ^ e.1 * e.2).sum = 0 := by
  intro c
  have hc : ∀ s ∈ c.maximal, s.length ≤ Simplex.maxVertices := by decide +kernel
  have hchi : eulerCharacteristic c = .ok 0 := by rfl
  have hzero : betti c 0 = .ok 2 := by rfl
  have hone : betti c 1 = .ok 2 := by rfl
  obtain ⟨chi, -, numbers, heq, -, -, hnumbers, hdegrees, -, hsum⟩ :=
    eulerCharacteristic_eq_alternating_betti c hc
  obtain rfl := Except.ok.inj (hchi.symm.trans heq)
  exact ⟨hc, hchi, numbers, hnumbers, hzero, hone, hdegrees, hsum.symm⟩

end Homology

end SimplexScript
