import Mathlib.Algebra.Field.ZMod
import Mathlib.FieldTheory.Finiteness
import Mathlib.LinearAlgebra.Dimension.FreeAndStrongRankCondition
import Mathlib.LinearAlgebra.FiniteDimensional.Lemmas
import SimplexScript.Homology

/-!
# Elimination counts the dimension of the row space

Rows of one length are vectors over the field of two elements. A column
without a pivot drops out of the row space. A pivot splits it into the line of
the pivot row and the space of the rows cleared of it, which have a zero in
the column. So the number of pivots is the dimension of the row space, and the
rows have two to that power sums.
-/

set_option autoImplicit false

namespace SimplexScript.Homology

def bit (b : Bool) : ZMod 2 := if b then 1 else 0

theorem bit_bne (a b : Bool) : bit (a != b) = bit a + bit b := by
  cases a <;> cases b <;> decide

def vec (n : Nat) (row : Row) : Fin n → ZMod 2 := fun i => bit (row.getD i false)

theorem vec_succ (n : Nat) (row : Row) :
    vec (n + 1) row = Fin.cons (bit (leads row)) (vec n row.tail) := by
  ext i
  cases i using Fin.cases with
  | zero =>
    cases row with
    | nil => rfl
    | cons a row => cases a <;> rfl
  | succ i => cases row <;> simp [vec]

theorem length_addRow (row other : Row) : (addRow row other).length = row.length := by
  fun_induction addRow row other with
  | case1 other => rfl
  | case2 row => rfl
  | case3 a row b other ih => simp [ih]

theorem vec_addRow (n : Nat) {row other : Row} (h : other.length ≤ row.length) :
    vec n (addRow row other) = vec n row + vec n other := by
  induction n generalizing row other with
  | zero =>
    ext i
    exact i.elim0
  | succ n ih =>
    match row, other, h with
    | [], [], _ =>
      ext i
      simp [vec, addRow, bit]
    | a :: row, [], _ =>
      ext i
      simp [vec, addRow, bit]
    | a :: row, b :: other, h =>
      have hrest := ih (Nat.le_of_succ_le_succ h)
      ext i
      cases i using Fin.cases with
      | zero => exact bit_bne a b
      | succ i => exact congrFun hrest i

def shift (n : Nat) : (Fin n → ZMod 2) →ₗ[ZMod 2] (Fin (n + 1) → ZMod 2) where
  toFun x := Fin.cons 0 x
  map_add' x y := by
    ext i
    cases i using Fin.cases <;> simp
  map_smul' a x := by
    ext i
    cases i using Fin.cases <;> simp

theorem shift_injective (n : Nat) : Function.Injective (shift n) :=
  fun _ _ h => Fin.cons_right_injective (α := fun _ => ZMod 2) 0 h

theorem shift_vec (n : Nat) {row : Row} (h : leads row = false) :
    shift n (vec n row.tail) = vec (n + 1) row := by
  rw [vec_succ, h]
  rfl

theorem shift_vec_clear (n : Nat) {pivot row : Row} (hp : leads pivot = true)
    (hlen : pivot.length = row.length) :
    shift n (vec n (clear pivot row)) = vec (n + 1) row + bit (leads row) • vec (n + 1) pivot := by
  unfold clear
  cases hrow : leads row with
  | false =>
    rw [if_neg (by simp), shift_vec n hrow]
    simp [bit]
  | true =>
    have hhead : leads (addRow row pivot) = false := by
      match row, pivot, hrow, hp with
      | true :: row, true :: pivot, _, _ => rfl
    rw [if_pos rfl, shift_vec n hhead, vec_addRow _ hlen.le]
    simp [bit]

def rowSpan (n : Nat) (rows : List Row) : Submodule (ZMod 2) (Fin n → ZMod 2) :=
  Submodule.span (ZMod 2) {x | ∃ row ∈ rows, vec n row = x}

theorem vec_mem_rowSpan {n : Nat} {rows : List Row} {row : Row} (h : row ∈ rows) :
    vec n row ∈ rowSpan n rows :=
  Submodule.subset_span ⟨row, h, rfl⟩

theorem rowSpan_le {n : Nat} {rows : List Row} {W : Submodule (ZMod 2) (Fin n → ZMod 2)}
    (h : ∀ row ∈ rows, vec n row ∈ W) : rowSpan n rows ≤ W := by
  apply Submodule.span_le.2
  rintro x ⟨row, hrow, rfl⟩
  exact h row hrow

theorem pivot?_eq_none {rows : List Row} (h : pivot? rows = none) :
    ∀ row ∈ rows, leads row = false := by
  induction rows with
  | nil => simp
  | cons row rows ih =>
    rw [pivot?] at h
    split at h
    · cases h
    next hrow =>
      rw [Option.map_eq_none_iff] at h
      intro r hr
      rcases List.mem_cons.1 hr with rfl | hr
      · simpa using hrow
      · exact ih h r hr

theorem pivot?_eq_some {rows before rest : List Row} {pivot : Row}
    (h : pivot? rows = some (before, pivot, rest)) :
    rows = before ++ pivot :: rest ∧ leads pivot = true := by
  induction rows generalizing before with
  | nil => cases h
  | cons row rows ih =>
    rw [pivot?] at h
    split at h
    next hrow =>
      cases h
      exact ⟨rfl, hrow⟩
    next =>
      obtain ⟨⟨before', pivot', rest'⟩, hsome, he⟩ := Option.map_eq_some_iff.1 h
      cases he
      obtain ⟨rfl, hlead⟩ := ih hsome
      exact ⟨rfl, hlead⟩

theorem mem_swapOut {before rest : List Row} {row : Row} :
    row ∈ swapOut before rest ↔ row ∈ before ∨ row ∈ rest := by
  cases before with
  | nil => simp [swapOut]
  | cons r before =>
    simp only [swapOut, List.mem_append, List.mem_cons]
    constructor
    · rintro (h | h | h)
      · exact Or.inl (Or.inr h)
      · exact Or.inl (Or.inl h)
      · exact Or.inr h
    · rintro ((h | h) | h)
      · exact Or.inr (Or.inl h)
      · exact Or.inl h
      · exact Or.inr (Or.inr h)

theorem rowSpan_of_no_pivot {n : Nat} {rows : List Row} (h : ∀ row ∈ rows, leads row = false) :
    rowSpan (n + 1) rows = (rowSpan n (rows.map List.tail)).map (shift n) := by
  apply le_antisymm
  · apply rowSpan_le
    intro row hrow
    rw [← shift_vec n (h row hrow)]
    exact Submodule.mem_map_of_mem (vec_mem_rowSpan (List.mem_map.2 ⟨row, hrow, rfl⟩))
  · rw [Submodule.map_le_iff_le_comap]
    apply rowSpan_le
    intro row hrow
    obtain ⟨r, hr, rfl⟩ := List.mem_map.1 hrow
    rw [Submodule.mem_comap, shift_vec n (h r hr)]
    exact vec_mem_rowSpan hr

theorem rowSpan_of_pivot {n : Nat} {before rest : List Row} {pivot : Row}
    (hp : leads pivot = true)
    (hlen : ∀ row ∈ before ++ pivot :: rest, pivot.length = row.length) :
    rowSpan (n + 1) (before ++ pivot :: rest) = Submodule.span (ZMod 2) {vec (n + 1) pivot} ⊔
      (rowSpan n ((swapOut before rest).map (clear pivot))).map (shift n) := by
  have hline : vec (n + 1) pivot ∈ Submodule.span (ZMod 2) {vec (n + 1) pivot} :=
    Submodule.mem_span_singleton_self _
  apply le_antisymm
  · apply rowSpan_le
    intro row hrow
    have hclear := shift_vec_clear n hp (hlen row hrow)
    by_cases hne : row = pivot
    · subst hne
      exact Submodule.mem_sup_left hline
    · have hmem : row ∈ swapOut before rest := by
        rw [mem_swapOut]
        rcases List.mem_append.1 hrow with h | h
        · exact Or.inl h
        · exact Or.inr ((List.mem_cons.1 h).resolve_left hne)
      have hrest : shift n (vec n (clear pivot row)) ∈
          (rowSpan n ((swapOut before rest).map (clear pivot))).map (shift n) :=
        Submodule.mem_map_of_mem (vec_mem_rowSpan (List.mem_map.2 ⟨row, hmem, rfl⟩))
      -- a row is what clearing left of it and, if it led, the pivot again
      have hback : vec (n + 1) row =
          shift n (vec n (clear pivot row)) - bit (leads row) • vec (n + 1) pivot := by
        rw [hclear, add_sub_cancel_right]
      rw [hback]
      exact Submodule.sub_mem _ (Submodule.mem_sup_right hrest)
        (Submodule.mem_sup_left (Submodule.smul_mem _ _ hline))
  · have hpivot : vec (n + 1) pivot ∈ rowSpan (n + 1) (before ++ pivot :: rest) :=
      vec_mem_rowSpan (by simp)
    apply sup_le
    · rw [Submodule.span_singleton_le_iff_mem]
      exact hpivot
    · rw [Submodule.map_le_iff_le_comap]
      apply rowSpan_le
      intro row hrow
      obtain ⟨r, hr, rfl⟩ := List.mem_map.1 hrow
      have hmem : r ∈ before ++ pivot :: rest := by
        rcases mem_swapOut.1 hr with h | h
        · exact List.mem_append_left _ h
        · exact List.mem_append_right _ (List.mem_cons_of_mem _ h)
      rw [Submodule.mem_comap, shift_vec_clear n hp (hlen r hmem)]
      exact Submodule.add_mem _ (vec_mem_rowSpan hmem) (Submodule.smul_mem _ _ hpivot)

theorem finrank_map_shift {n : Nat} (W : Submodule (ZMod 2) (Fin n → ZMod 2)) :
    Module.finrank (ZMod 2) (W.map (shift n)) = Module.finrank (ZMod 2) W :=
  (Submodule.equivMapOfInjective (shift n) (shift_injective n) W).finrank_eq.symm

theorem finrank_line_sup {n : Nat} {pivot : Row} (hp : leads pivot = true)
    (W : Submodule (ZMod 2) (Fin n → ZMod 2)) :
    Module.finrank (ZMod 2)
      (Submodule.span (ZMod 2) {vec (n + 1) pivot} ⊔ W.map (shift n) : Submodule _ _) =
        Module.finrank (ZMod 2) W + 1 := by
  have hone : vec (n + 1) pivot 0 = 1 := by
    rw [vec_succ, hp]
    rfl
  have hne : vec (n + 1) pivot ≠ 0 := by
    intro h
    rw [h] at hone
    exact zero_ne_one hone
  have hinf : Submodule.span (ZMod 2) {vec (n + 1) pivot} ⊓ W.map (shift n) = ⊥ := by
    rw [Submodule.eq_bot_iff]
    rintro x ⟨hx, y, -, hy⟩
    obtain ⟨a, rfl⟩ := Submodule.mem_span_singleton.1 hx
    have hzero : a * vec (n + 1) pivot 0 = 0 := (congrFun hy 0).symm
    rw [hone, mul_one] at hzero
    rw [hzero, zero_smul]
  have hsum := Submodule.finrank_sup_add_finrank_inf_eq
    (Submodule.span (ZMod 2) {vec (n + 1) pivot}) (W.map (shift n))
  rw [hinf, finrank_bot, finrank_span_singleton hne, finrank_map_shift] at hsum
  omega

theorem pivotCount_eq_finrank (n : Nat) (rows : List Row) (h : ∀ row ∈ rows, row.length = n) :
    pivotCount n rows = Module.finrank (ZMod 2) (rowSpan n rows) := by
  induction n generalizing rows with
  | zero =>
    rw [pivotCount]
    exact Module.finrank_zero_of_subsingleton.symm
  | succ n ih =>
    rw [pivotCount]
    cases hpiv : pivot? rows with
    | none =>
      have htail : ∀ row ∈ rows.map List.tail, row.length = n := by
        intro row hrow
        obtain ⟨r, hr, rfl⟩ := List.mem_map.1 hrow
        simp [h r hr]
      rw [rowSpan_of_no_pivot (pivot?_eq_none hpiv), finrank_map_shift, ← ih _ htail]
    | some e =>
      obtain ⟨before, pivot, rest⟩ := e
      obtain ⟨rfl, hlead⟩ := pivot?_eq_some hpiv
      have hpl : pivot.length = n + 1 := h pivot (by simp)
      have hclear : ∀ row ∈ (swapOut before rest).map (clear pivot), row.length = n := by
        intro row hrow
        obtain ⟨r, hr, rfl⟩ := List.mem_map.1 hrow
        have hr' : r.length = n + 1 := by
          rcases mem_swapOut.1 hr with hb | hb
          · exact h r (List.mem_append_left _ hb)
          · exact h r (List.mem_append_right _ (List.mem_cons_of_mem _ hb))
        unfold clear
        split <;> simp [length_addRow, hr']
      rw [rowSpan_of_pivot hlead fun row hrow => hpl.trans (h row hrow).symm,
        finrank_line_sup hlead, ← ih _ hclear]

/-- The rank of a matrix is the dimension of the space of its rows modulo two. -/
theorem rank_eq_finrank {n : Nat} {matrix : List (List Nat)}
    (h : ∀ row ∈ matrix, row.length = n) :
    rank matrix =
      Module.finrank (ZMod 2) (rowSpan n (matrix.map fun row => row.map parity)) := by
  have hrows : ∀ row ∈ matrix.map (fun row => row.map parity), row.length = n := by
    intro row hrow
    obtain ⟨r, hr, rfl⟩ := List.mem_map.1 hrow
    simp [h r hr]
  cases matrix with
  | nil =>
    have hbot : rowSpan n (([] : List (List Nat)).map fun row => row.map parity) = ⊥ :=
      le_bot_iff.1 (rowSpan_le (by simp))
    rw [hbot, finrank_bot]
    rfl
  | cons row rows =>
    have hlen : (row.map parity).length = n := by simp [h row (by simp)]
    rw [← pivotCount_eq_finrank n _ hrows, ← hlen]
    rfl

theorem natCard_eq_two_pow {V : Type} [AddCommGroup V] [Module (ZMod 2) V]
    [Module.Finite (ZMod 2) V] : Nat.card V = 2 ^ Module.finrank (ZMod 2) V := by
  rw [Module.natCard_eq_pow_finrank (K := ZMod 2), Nat.card_zmod]

theorem bit_parity (n : Nat) : bit (parity n) = (n : ZMod 2) := by
  rw [← ZMod.natCast_mod n 2, parity]
  rcases Nat.mod_two_eq_zero_or_one n with h | h
  · rw [h]
    rfl
  · rw [h]
    rfl

def residues (n : Nat) (row : List Nat) : Fin n → ZMod 2 := fun i => (row.getD i 0 : ZMod 2)

/-- What the rows of each subset of the rows of a matrix add up to modulo two. -/
def subsetSums (n : Nat) (matrix : List (List Nat)) : Finset (Fin n → ZMod 2) :=
  (matrix.sublists.map fun rows => (rows.map (residues n)).sum).toFinset

section SubsetSums

variable {n : Nat} {x : Fin n → ZMod 2}

theorem vec_parity (n : Nat) (row : List Nat) : vec n (row.map parity) = residues n row := by
  ext i
  rw [vec, residues, ← bit_parity, List.getD_eq_getElem?_getD, List.getD_eq_getElem?_getD,
    List.getElem?_map]
  cases row[(i : Nat)]? <;> rfl

theorem mem_subsetSums {matrix : List (List Nat)} : x ∈ subsetSums n matrix ↔
    ∃ rows : List (List Nat), rows.Sublist matrix ∧ (rows.map (residues n)).sum = x := by
  simp [subsetSums]

theorem mem_subsetSums_cons {row : List Nat} {matrix : List (List Nat)} :
    x ∈ subsetSums n (row :: matrix) ↔
      x ∈ subsetSums n matrix ∨ ∃ y ∈ subsetSums n matrix, residues n row + y = x := by
  simp only [mem_subsetSums]
  constructor
  · rintro ⟨rows, hrows, rfl⟩
    cases hrows with
    | cons _ h => exact Or.inl ⟨rows, h, rfl⟩
    | cons_cons _ h => exact Or.inr ⟨_, ⟨_, h, rfl⟩, by rw [List.map_cons, List.sum_cons]⟩
  · rintro (⟨rows, h, rfl⟩ | ⟨y, ⟨rows, h, rfl⟩, rfl⟩)
    · exact ⟨rows, h.cons row, rfl⟩
    · exact ⟨row :: rows, h.cons_cons row, by rw [List.map_cons, List.sum_cons]⟩

/-- The scalars are zero and one, so a new row is either left out or added once. -/
theorem mem_rowSpan_cons {row : Row} {rows : List Row} : x ∈ rowSpan n (row :: rows) ↔
    x ∈ rowSpan n rows ∨ ∃ y ∈ rowSpan n rows, vec n row + y = x := by
  have hset : {y | ∃ r ∈ row :: rows, vec n r = y} =
      insert (vec n row) {y | ∃ r ∈ rows, vec n r = y} := by
    ext y
    simp [eq_comm]
  have hbits : ∀ a : ZMod 2, a = 0 ∨ a = 1 := by decide
  rw [rowSpan, hset, Submodule.mem_span_insert]
  constructor
  · rintro ⟨a, y, hy, rfl⟩
    rcases hbits a with rfl | rfl
    · rw [zero_smul, zero_add]
      exact Or.inl hy
    · rw [one_smul]
      exact Or.inr ⟨y, hy, rfl⟩
  · rintro (hx | ⟨y, hy, rfl⟩)
    · exact ⟨0, x, hx, by rw [zero_smul, zero_add]⟩
    · exact ⟨1, y, hy, by rw [one_smul]⟩

theorem mem_subsetSums_iff {matrix : List (List Nat)} :
    x ∈ subsetSums n matrix ↔ x ∈ rowSpan n (matrix.map fun row => row.map parity) := by
  induction matrix generalizing x with
  | nil => simp [subsetSums, rowSpan, eq_comm]
  | cons row matrix ih =>
    rw [List.map_cons, mem_subsetSums_cons, mem_rowSpan_cons, vec_parity]
    simp only [ih]

theorem card_subsetSums {matrix : List (List Nat)} (h : ∀ row ∈ matrix, row.length = n) :
    (subsetSums n matrix).card = 2 ^ rank matrix := by
  have hspan : (subsetSums n matrix : Set (Fin n → ZMod 2)) =
      rowSpan n (matrix.map fun row => row.map parity) := Set.ext fun x => mem_subsetSums_iff
  rw [rank_eq_finrank h, ← natCard_eq_two_pow, ← SetLike.coe_sort_coe, ← hspan]
  simp

end SubsetSums

/-- The rank of a matrix is the number `r` for which the subsets of its rows have `2 ^ r` different
sums modulo two. -/
theorem rank_eq_iff_card_subsetSums (n : Nat) (matrix : List (List Nat))
    (h : ∀ row ∈ matrix, row.length = n) (r : Nat) :
    rank matrix = r ↔ (subsetSums n matrix).card = 2 ^ r := by
  rw [card_subsetSums h]
  exact (Nat.pow_right_injective (Nat.le_refl 2)).eq_iff.symm

/-- Three rows, the last of which is the sum of the others; the first pivot is found in the second
row. -/
theorem rank_eq_iff_card_subsetSums_dependent :
    let matrix := [[0, 1, 1], [3, 0, 1], [1, 5, 2]]
    (∀ row ∈ matrix, row.length = 3) ∧ rank matrix = 2 ∧ (subsetSums 3 matrix).card = 2 ^ 2 := by
  intro matrix
  have hlen : ∀ row ∈ matrix, row.length = 3 := by decide
  have hrank : rank matrix = 2 := by decide
  exact ⟨hlen, hrank, (rank_eq_iff_card_subsetSums 3 matrix hlen 2).1 hrank⟩

end SimplexScript.Homology
