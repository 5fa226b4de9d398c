import Mathlib.Algebra.Order.Field.Rat
import SimplexScript.Proofs.Number.Exact

/-!
# Counting up to a limit

A counter is kept in rounded sums and compared with a limit after each step.
The sums come to rest at 2 ^ 53. So a limit up to there is met after as many
steps as there are integers from zero on below it, and no other limit is ever
met.
-/

set_option autoImplicit false

namespace SimplexScript.Number

theorem finite_le_ofInt {q : Rat} {z : Int} : (finite q).le (ofInt z) = true ↔ q.ceil ≤ z := by
  have hz : Rat.ofInt z = (z : Rat) := rfl
  simp only [le, lt, ofInt, hz, Bool.or_eq_true, decide_eq_true_eq, Bool.and_eq_true]
  rw [Rat.ceil_le_iff, le_iff_lt_or_eq]
  simp

theorem countBelow_of_le {limit : Number} (h : limit.le (.ofInt (2 ^ 53)) = true) (k : Nat) :
    limit.le (.ofInt k) = decide (limit.countBelow ≤ k) := by
  cases limit with
  | finite q =>
    have hq : q ≤ Rat.ofInt (Nat.pow 2 53 : Nat) := Rat.ceil_le_iff.1 (finite_le_ofInt.1 h)
    rw [Bool.eq_iff_iff, finite_le_ofInt, countBelow, if_pos hq, decide_eq_true_eq, Int.toNat_le]
  | infinite negative =>
    cases negative with
    | true => simp [le, lt, ofInt, countBelow]
    | false => simp [le, lt, ofInt] at h
  | nan => simp [le, lt] at h

theorem countBelow_le {limit : Number} (h : limit.le (.ofInt (2 ^ 53)) = true) :
    limit.countBelow ≤ 2 ^ 53 := by
  have hrest := countBelow_of_le h (2 ^ 53)
  rw [Int.natCast_pow] at hrest
  exact of_decide_eq_true (hrest.symm.trans h)

theorem countBelow_le_infinite (a : Number) : a.countBelow ≤ (infinite false).countBelow := by
  cases a with
  | finite q =>
    by_cases hq : q ≤ Rat.ofInt (Nat.pow 2 53 : Nat)
    · have hle : (finite q).le (.ofInt (2 ^ 53)) = true := finite_le_ofInt.2 (Rat.ceil_le_iff.2 hq)
      exact (countBelow_le hle).trans (Nat.pow_le_pow_right Nat.two_pos (by decide))
    · exact (if_neg hq : (finite q).countBelow = _).le
  | infinite negative =>
    cases negative with
    | true => exact Nat.zero_le _
    | false => exact Nat.le_refl _
  | nan => exact Nat.le_refl _

theorem le_countBelow {n : Nat} {a : Number} (h : (ofInt n).le a = true)
    (hn : n ≤ (infinite false).countBelow) : n ≤ a.countBelow := by
  cases a with
  | finite q =>
    rw [countBelow]
    split
    · have hq : (n : Rat) ≤ q := by
        have hcast : Rat.ofInt n = (n : Rat) := rfl
        simp only [le, lt, ofInt, hcast, Bool.or_eq_true, decide_eq_true_eq, Bool.and_eq_true,
          finite.injEq] at h
        rcases h with h | ⟨h, -⟩
        · exact le_of_lt h
        · exact le_of_eq h
      have hceil : (n : Int) ≤ q.ceil := by
        have hle : (n : Rat) ≤ (q.ceil : Rat) := hq.trans Rat.le_ceil
        exact_mod_cast hle
      omega
    · exact hn
  | infinite negative =>
    cases negative with
    | true => simp [le, lt, ofInt] at h
    | false => exact hn
  | nan => simp [le, lt, ofInt] at h

theorem add_one_min (k : Nat) :
    (ofInt (min k (2 ^ 53) : Nat)).add (ofInt 1) = ofInt (min (k + 1) (2 ^ 53) : Nat) := by
  by_cases h : k < 2 ^ 53
  · rw [Nat.min_eq_left (by omega), Nat.min_eq_left (by omega)]
    exact add_one h
  · rw [Nat.min_eq_right (by omega), Nat.min_eq_right (by omega)]
    exact add_one_rest

/-- A greater limit is not met, since the sums come to rest before. -/
theorem le_ofInt_eq_false {limit : Number} (h : (ofInt (2 ^ 53)).lt limit = true) {z : Int}
    (hz : z ≤ 2 ^ 53) : limit.le (.ofInt z) = false := by
  cases limit with
  | finite q =>
    have hrest : ¬ q.ceil ≤ 2 ^ 53 := by
      intro hle
      have hq : q ≤ ((2 ^ 53 : Int) : Rat) := Rat.ceil_le_iff.1 hle
      have hlt : ((2 ^ 53 : Int) : Rat) < q := of_decide_eq_true h
      exact absurd hq (not_le.2 hlt)
    rw [Bool.eq_false_iff, Ne, finite_le_ofInt]
    omega
  | infinite negative =>
    cases negative with
    | true => cases h
    | false => simp [le, lt, ofInt]
  | nan => cases h

end SimplexScript.Number
