import Mathlib.Data.List.TakeWhile
import Mathlib.Tactic.Ring
import SimplexScript.Number.Decimal
import SimplexScript.Proofs.Number.Exact

/-!
# Decimal text of integers

An integer up to 2 ^ 53 in size is written in its decimal digits. The search for
the fewest digits that read back may stop before the zeros at the end, and the
layout puts these back before the point.
-/

set_option autoImplicit false

namespace SimplexScript.Number

theorem toDigits_mul_ten_pow {d : Nat} (hd : 0 < d) (p : Nat) :
    Nat.toDigits 10 (d * 10 ^ p) = Nat.toDigits 10 d ++ List.replicate p '0' := by
  induction p with
  | zero => simp
  | succ p ih =>
    have hpos : 0 < d * 10 ^ p := Nat.mul_pos hd (Nat.pow_pos (by decide))
    have hstep : d * 10 ^ (p + 1) = 10 * (d * 10 ^ p) + 0 := by ring
    rw [hstep, ← Nat.toDigits_append_toDigits (by decide) hpos (by decide), ih,
      List.append_assoc, List.replicate_succ']
    rfl

theorem exists_dropZeros (cs : List Char) :
    ∃ k, cs = dropZeros cs ++ List.replicate k '0' := by
  let dropped := cs.reverse.takeWhile fun c => decide (c = '0')
  have hzeros : dropped = List.replicate dropped.length '0' := by
    apply List.eq_replicate_of_mem
    intro c hc
    simpa using List.mem_takeWhile_imp hc
  refine ⟨dropped.length, ?_⟩
  calc cs = (dropped ++ cs.reverse.dropWhile fun c => decide (c = '0')).reverse := by
        rw [List.takeWhile_append_dropWhile, List.reverse_reverse]
    _ = dropZeros cs ++ dropped.reverse := by rw [List.reverse_append, dropZeros]
    _ = dropZeros cs ++ List.replicate dropped.length '0' := by
        rw [hzeros, List.reverse_replicate, List.length_replicate]

theorem layout_dropZeros {cs : List Char} {p : Nat} (h : cs.length + p ≤ 21) :
    layout (dropZeros cs) (cs.length + p) = cs ++ List.replicate p '0' := by
  obtain ⟨k, hk⟩ := exists_dropZeros cs
  have hlen : cs.length = (dropZeros cs).length + k := by
    conv_lhs => rw [hk]
    simp
  have hzeros : zeros ((cs.length + p : Int) - (dropZeros cs).length) =
      List.replicate k '0' ++ List.replicate p '0' := by
    rw [zeros, List.replicate_append_replicate]
    congr 1
    omega
  unfold layout
  rw [if_pos ⟨by omega, by rw [maxPositional]; omega⟩, hzeros, ← List.append_assoc, ← hk]

section Search

variable {n : Nat}

theorem round_decimalValue_iff (hn : n < 2 ^ 53) (d p : Nat) :
    round (decimalValue d p) = finite (Rat.ofInt n) ↔ d * 10 ^ p = n := by
  have hvalue : decimalValue d p = Rat.ofInt (d * 10 ^ p : Nat) := by
    simp [decimalValue]
  rw [hvalue]
  constructor
  · intro h
    have hsafe : (round (Rat.ofInt (d * 10 ^ p : Nat))).isSafe = true := by
      rw [h]
      exact isSafe_ofInt.2 (by omega)
    rw [round_ofInt (by have := isSafe_round.1 hsafe; omega)] at h
    exact Int.ofNat_inj.1 (ofInt_inj.1 h)
  · rintro rfl
    exact round_ofInt (by omega)

/-- Digits for a power of ten read back only if they are exact. -/
theorem readBack_ofInt (hn : n < 2 ^ 53) (p : Nat) :
    readBack (Rat.ofInt n) p = if 10 ^ p ∣ n then [n / 10 ^ p] else [] := by
  have hpos : 0 < 10 ^ p := Nat.pow_pos (by decide)
  have hbelow : n / 10 ^ p * 10 ^ p = n ↔ 10 ^ p ∣ n :=
    ⟨Dvd.intro_left _, Nat.div_mul_cancel⟩
  have habove : (n / 10 ^ p + 1) * 10 ^ p ≠ n := by
    have := Nat.lt_div_mul_add (a := n) hpos
    rw [Nat.add_mul]
    omega
  have hgrid : readBack (Rat.ofInt n) p = [n / 10 ^ p, n / 10 ^ p + 1].filter fun d =>
      decide (round (decimalValue d p) = finite (Rat.ofInt n)) := by
    simp [readBack, Rat.ofInt]
  rw [hgrid]
  simp only [List.filter_cons, List.filter_nil, round_decimalValue_iff hn, hbelow, habove,
    decide_eq_true_eq, if_false]

theorem searchDigits_ofInt (hn : n < 2 ^ 53) (point more k : Nat) (hk : k ≤ point)
    (hmore : point < k + more) :
    ∃ d p : Nat, searchDigits (Rat.ofInt n) point more k = (d, (p : Int)) ∧ d * 10 ^ p = n := by
  induction more generalizing k with
  | zero => omega
  | succ more ih =>
    have hplace : (point : Int) - k = (point - k : Nat) := by omega
    by_cases hdvd : 10 ^ (point - k) ∣ n
    · refine ⟨n / 10 ^ (point - k), point - k, ?_, Nat.div_mul_cancel hdvd⟩
      simp only [searchDigits, hplace, nearestDigits, readBack_ofInt hn, if_pos hdvd]
    · have hne : k ≠ point := by
        rintro rfl
        simp at hdvd
      obtain ⟨d, p, hsearch, hd⟩ := ih (k + 1) (by omega) (by omega)
      refine ⟨d, p, ?_, hd⟩
      rw [← hsearch, searchDigits]
      simp only [hplace, nearestDigits, readBack_ofInt hn, if_neg hdvd]

end Search

theorem positiveChars_ofInt {n : Nat} (hpos : 0 < n) (hn : n ≤ 2 ^ 53) :
    positiveChars (Rat.ofInt n) = Nat.toDigits 10 n := by
  rcases Nat.eq_or_lt_of_le hn with rfl | hn
  · decide +kernel
  have hcount : (Nat.toDigits 10 n).length ≤ 16 :=
    (Nat.length_toDigits_le_iff (by decide) (by decide)).2 (by omega)
  obtain ⟨d, p, hsearch, hd⟩ := searchDigits_ofInt hn (digitCount n) 17 1
    Nat.length_toDigits_pos (by rw [digitCount]; omega)
  have hdpos : 0 < d := by
    rcases Nat.eq_zero_or_pos d with rfl | h
    · omega
    · exact h
  have hdigits : Nat.toDigits 10 n = Nat.toDigits 10 d ++ List.replicate p '0' := by
    rw [← toDigits_mul_ten_pow hdpos, hd]
  have hlen : (Nat.toDigits 10 d).length + p ≤ 21 := by
    have := congrArg List.length hdigits
    simp only [List.length_append, List.length_replicate] at this
    omega
  have hpoint : decimalPoint (Rat.ofInt n) = digitCount n := by simp [decimalPoint, Rat.ofInt]
  rw [positiveChars, hpoint, hsearch]
  simp only
  rw [layout_dropZeros hlen, hdigits]

theorem text_ofInt {z : Int} (hz : z.natAbs ≤ 2 ^ 53) : (ofInt z).text = toString z := by
  have hnum : (Rat.ofInt z).num = z := rfl
  cases z with
  | ofNat n =>
    rcases Nat.eq_zero_or_pos n with rfl | hpos
    · rfl
    have hchars : positiveChars (Rat.ofInt (Int.ofNat n)) = Nat.toDigits 10 n :=
      positiveChars_ofInt hpos hz
    have hsign : 0 < Int.ofNat n := Int.natCast_pos.2 hpos
    rw [ofInt, text, hnum, if_neg (by omega), if_neg (by omega), hchars]
    exact Nat.repr_eq_ofList_toDigits.symm
  | negSucc n =>
    have hchars : positiveChars (-Rat.ofInt (Int.negSucc n)) = Nat.toDigits 10 (n + 1) :=
      positiveChars_ofInt n.succ_pos hz
    have hsign : Int.negSucc n < 0 := Int.negSucc_lt_zero n
    have htext : toString (Int.negSucc n) = "-" ++ (n + 1).repr := rfl
    rw [ofInt, text, hnum, if_neg (by omega), if_pos hsign, hchars, htext,
      Nat.repr_eq_ofList_toDigits, ← String.ofList_append]
    rfl

end SimplexScript.Number
