import Mathlib.Data.Rat.Lemmas
import SimplexScript.Number.Basic

/-!
# Exact integers

An integer of at most 53 bits is a number as it stands, so rounding leaves it
alone. The first integer beyond is rounded down, which is where counting in
rounded sums comes to rest. The safe integers are those below it, and rounding
leads no other integer among them.
-/

set_option autoImplicit false

namespace SimplexScript.Number

theorem nearestEven_of_dvd {n : Int} {d : Nat} (hd : 0 < d) (h : (d : Int) ∣ n) :
    nearestEven n d = n / d := by
  have hr : n % (d : Int) = 0 := Int.emod_eq_zero_of_dvd h
  have hlt : 2 * (0 : Int) < d := by omega
  simp only [nearestEven, hr, hlt, if_true]

theorem binaryExponent_ofInt {z : Int} (hz : z ≠ 0) :
    binaryExponent (Rat.ofInt z) = (Nat.log2 z.natAbs : Int) := by
  have hn : z.natAbs ≠ 0 := by omega
  have hle : 2 ^ Nat.log2 z.natAbs ≤ z.natAbs := Nat.log2_self_le hn
  have h1 : Nat.log2 1 = 0 := by decide
  simp [binaryExponent, Rat.ofInt, h1, hle]

theorem scaled_significand {z : Int} {e : Int} (he : 0 ≤ e → ((2 ^ e.toNat : Nat) : Int) ∣ z) :
    scaled (significand (Rat.ofInt z) e) e = Rat.ofInt z := by
  by_cases h : 0 ≤ e
  · have hpos : 0 < 2 ^ e.toNat := Nat.two_pow_pos _
    have hsig : significand (Rat.ofInt z) e = z / ((2 ^ e.toNat : Nat) : Int) := by
      simp only [significand, h, if_true, Rat.ofInt, Nat.one_mul, Nat.pow_eq]
      exact nearestEven_of_dvd hpos (he h)
    simp only [scaled, h, if_true, hsig, Nat.pow_eq, Int.ediv_mul_cancel (he h)]
  · have hpos : 2 ^ (-e).toNat ≠ 0 := (Nat.two_pow_pos _).ne'
    have hsig : significand (Rat.ofInt z) e = z * ((2 ^ (-e).toNat : Nat) : Int) := by
      simp only [significand, h, if_false, Rat.ofInt, Nat.pow_eq]
      rw [nearestEven_of_dvd Nat.one_pos (by simp)]
      simp
    have hone : mkRat z 1 = Rat.ofInt z := Rat.mkRat_self (Rat.ofInt z)
    have hmul := Rat.mkRat_mul_right (n := z) (d := 1) hpos
    simp only [scaled, h, if_false, hsig, Nat.pow_eq]
    rw [Nat.one_mul] at hmul
    rw [hmul, hone]

theorem lastPlace_ofInt {z : Int} (hz : z ≠ 0) :
    lastPlace (Rat.ofInt z) = (Nat.log2 z.natAbs : Int) - 52 := by
  simp only [lastPlace, binaryExponent_ofInt hz]
  split <;> omega

theorem round_ofInt {z : Int} (hz : z.natAbs ≤ 2 ^ 53) : round (Rat.ofInt z) = .ofInt z := by
  by_cases h0 : z = 0
  · subst h0
    rfl
  have hn : z.natAbs ≠ 0 := by omega
  have hlog : Nat.log2 z.natAbs < 54 := (Nat.log2_lt hn).2 (by omega)
  have hlast := lastPlace_ofInt h0
  have hdvd : 0 ≤ lastPlace (Rat.ofInt z) →
      ((2 ^ (lastPlace (Rat.ofInt z)).toNat : Nat) : Int) ∣ z := by
    intro he
    by_cases h53 : Nat.log2 z.natAbs = 53
    · have hz53 : 2 ^ 53 ≤ z.natAbs := by
        rw [← h53]
        exact Nat.log2_self_le hn
      have h2 : (lastPlace (Rat.ofInt z)).toNat = 1 := by omega
      rw [h2]
      omega
    · have h2 : (lastPlace (Rat.ofInt z)).toNat = 0 := by omega
      rw [h2]
      simp
  have hover : overflows (significand (Rat.ofInt z) (lastPlace (Rat.ofInt z)))
      (lastPlace (Rat.ofInt z)) = false := by
    have h1 : ¬ 971 < lastPlace (Rat.ofInt z) := by omega
    have h2 : ¬ lastPlace (Rat.ofInt z) = 971 := by omega
    simp only [overflows, h1, h2, decide_false, Bool.false_and, Bool.or_false]
  have hnum : (Rat.ofInt z).num ≠ 0 := h0
  simp only [round, hnum, if_false, hover, scaled_significand hdvd, ofInt, Bool.false_eq_true]

theorem ofInt_add {y z : Int} : Rat.ofInt y + Rat.ofInt z = Rat.ofInt (y + z) := by
  have h (w : Int) : Rat.ofInt w = (w : Rat) := rfl
  rw [h, h, h]
  push_cast
  rfl

theorem ofInt_neg {z : Int} : -Rat.ofInt z = Rat.ofInt (-z) := by
  have h (w : Int) : Rat.ofInt w = (w : Rat) := rfl
  rw [h, h]
  push_cast
  rfl

theorem ofInt_mul {y z : Int} : Rat.ofInt y * Rat.ofInt z = Rat.ofInt (y * z) := by
  have h (w : Int) : Rat.ofInt w = (w : Rat) := rfl
  rw [h, h, h]
  push_cast
  rfl

theorem add_one_int {z : Int} (hlow : -2 ^ 53 ≤ z) (h : z < 2 ^ 53) :
    (ofInt z).add (ofInt 1) = ofInt (z + 1) := by
  have hz : (z + 1).natAbs ≤ 2 ^ 53 := by omega
  simp only [ofInt, add, ofInt_add, round_ofInt hz]

theorem add_one {n : Nat} (h : n < 2 ^ 53) : (ofInt n).add (ofInt 1) = ofInt (n + 1 : Nat) :=
  add_one_int (by omega) (by omega)

/-- The next integer is no number: it lies half way and goes to the even neighbour below. -/
theorem add_one_rest : (ofInt (2 ^ 53 : Nat)).add (ofInt 1) = ofInt (2 ^ 53 : Nat) := by
  decide +kernel

theorem ofInt_inj {y z : Int} : ofInt y = ofInt z ↔ y = z := by
  simp [ofInt, Rat.ofInt]

theorem lt_ofInt {y z : Int} : (ofInt y).lt (ofInt z) = true ↔ y < z := by
  have h (w : Int) : Rat.ofInt w = (w : Rat) := rfl
  simp only [ofInt, lt, h, decide_eq_true_eq]
  exact_mod_cast Iff.rfl

theorem lt_ofInt_of_le {a : Number} {y z : Int} (h : a.lt (ofInt y) = true) (hyz : y ≤ z) :
    a.lt (ofInt z) = true := by
  have hcast (w : Int) : Rat.ofInt w = (w : Rat) := rfl
  cases a with
  | finite q =>
    simp only [lt, ofInt, hcast, decide_eq_true_eq] at h ⊢
    have hle : (y : Rat) ≤ (z : Rat) := by exact_mod_cast hyz
    exact Std.lt_of_lt_of_le h hle
  | infinite s => exact h
  | nan => cases h

theorem le_ofInt {y z : Int} : (ofInt y).le (ofInt z) = true ↔ y ≤ z := by
  simp only [le, Bool.or_eq_true, lt_ofInt, Bool.and_eq_true, decide_eq_true_eq, ofInt_inj]
  have hnan : ofInt y ≠ nan := by simp [ofInt]
  simp [hnan]
  omega

theorem toInt?_eq_some {a : Number} {z : Int} (h : a.toInt? = some z) : a = .ofInt z := by
  cases a with
  | finite q =>
    by_cases hden : q.den = 1
    · simp only [toInt?, hden, if_true, Option.some.injEq] at h
      exact congrArg finite (Rat.ext h hden)
    · simp [toInt?, hden] at h
  | infinite negative => cases h
  | nan => cases h

theorem isSafe_iff {a : Number} :
    a.isSafe = true ↔ ∃ z : Int, a = .ofInt z ∧ z.natAbs < 2 ^ 53 := by
  unfold isSafe
  constructor
  · intro h
    split at h
    next z hz =>
      have hle : z.natAbs ≤ maxSafe := of_decide_eq_true h
      simp only [maxSafe] at hle
      exact ⟨z, toInt?_eq_some hz, by omega⟩
    next => cases h
  · rintro ⟨z, rfl, hz⟩
    have hle : z.natAbs ≤ maxSafe := by
      simp only [maxSafe]
      omega
    exact decide_eq_true hle

theorem isSafe_ofInt {z : Int} : (ofInt z).isSafe = true ↔ z.natAbs < 2 ^ 53 := by
  rw [isSafe_iff]
  constructor
  · rintro ⟨y, hy, hlt⟩
    rwa [ofInt_inj.1 hy]
  · exact fun hz => ⟨z, rfl, hz⟩

theorem le_nearestEven {n k : Int} {d : Nat} (hd : 0 < d) (h : k * d ≤ n) :
    k ≤ nearestEven n d := by
  have hk : k ≤ n / d := (Int.le_ediv_iff_mul_le (by omega)).2 h
  simp only [nearestEven]
  split
  · exact hk
  · split <;> omega

theorem nearestEven_le {n k : Int} {d : Nat} (hd : 0 < d) (h : n ≤ k * d) :
    nearestEven n d ≤ k := by
  have hd' : (0 : Int) < d := by omega
  have hsplit : (d : Int) * (n / d) + n % d = n := Int.mul_ediv_add_emod n d
  have hpos : 0 ≤ n % (d : Int) := Int.emod_nonneg n (by omega)
  have hk : n / d ≤ k := by
    have hle := Int.ediv_le_ediv hd' h
    rwa [Int.mul_ediv_cancel k (by omega)] at hle
  simp only [nearestEven]
  by_cases heq : n / d = k
  · have hzero : n % (d : Int) = 0 := by
      rw [heq, Int.mul_comm] at hsplit
      omega
    rw [if_pos (by omega)]
    exact hk
  · split
    · exact hk
    · split <;> omega

theorem le_natAbs_nearestEven {n : Int} {d m : Nat} (hd : 0 < d) (h : m * d ≤ n.natAbs) :
    m ≤ (nearestEven n d).natAbs := by
  have hcast : ((m * d : Nat) : Int) = (m : Int) * d := Int.natCast_mul m d
  rcases Int.le_total 0 n with hn | hn
  · have hle := le_nearestEven (k := m) hd (n := n) (by omega)
    omega
  · have hle := nearestEven_le (k := -(m : Int)) hd (n := n) (by rw [Int.neg_mul]; omega)
    omega

theorem significand_ofInt (z : Int) (k : Nat) :
    significand (Rat.ofInt z) k = nearestEven z (2 ^ k) := by
  rw [significand, if_pos (Int.natCast_nonneg k), Int.toNat_natCast]
  exact congrArg (nearestEven z) (Nat.one_mul _)

theorem scaled_natCast (m : Int) (k : Nat) : scaled m k = Rat.ofInt (m * (2 ^ k : Nat)) := by
  rw [scaled, if_pos (Int.natCast_nonneg k), Int.toNat_natCast]
  rfl

/-- An integer of more than 53 bits is rounded to a number that is no safe integer: its significand
keeps 53 bits, and the place of the last is at least two. -/
theorem isSafe_round_of_le {z : Int} (hz : 2 ^ 53 ≤ z.natAbs) :
    (round (Rat.ofInt z)).isSafe = false := by
  have h0 : z ≠ 0 := by omega
  have hlog : 53 ≤ Nat.log2 z.natAbs := (Nat.le_log2 (by omega)).2 hz
  obtain ⟨k, hk⟩ : ∃ k, Nat.log2 z.natAbs = k + 53 := ⟨_, (Nat.sub_add_cancel hlog).symm⟩
  have hlast : lastPlace (Rat.ofInt z) = ((k + 1 : Nat) : Int) := by
    rw [lastPlace_ofInt h0, hk]
    omega
  have hsize : 2 ^ 52 * 2 ^ (k + 1) ≤ z.natAbs := by
    rw [← Nat.pow_add, show 52 + (k + 1) = k + 53 by omega, ← hk]
    exact Nat.log2_self_le (by omega)
  have hnum : (Rat.ofInt z).num ≠ 0 := h0
  simp only [round, hnum, if_false, hlast, significand_ofInt, scaled_natCast]
  split
  · rfl
  · have hm : 2 ^ 52 ≤ (nearestEven z (2 ^ (k + 1))).natAbs :=
      le_natAbs_nearestEven (Nat.two_pow_pos _) hsize
    generalize nearestEven z (2 ^ (k + 1)) = m at hm
    rw [Bool.eq_false_iff, Ne]
    intro hsafe
    have hlt := isSafe_ofInt.1 hsafe
    rw [Int.natAbs_mul, Int.natAbs_natCast] at hlt
    have hpow : 2 ≤ 2 ^ (k + 1) := by
      rw [Nat.pow_succ]
      have := Nat.two_pow_pos k
      omega
    have hbig : 2 ^ 52 * 2 ≤ m.natAbs * 2 ^ (k + 1) := Nat.mul_le_mul hm hpow
    omega

/-- Rounding leads no integer into the safe range, and moves none inside. -/
theorem isSafe_round {z : Int} : (round (Rat.ofInt z)).isSafe = true ↔ z.natAbs < 2 ^ 53 := by
  constructor
  · intro h
    by_contra hz
    rw [isSafe_round_of_le (by omega)] at h
    cases h
  · intro hz
    rw [round_ofInt (by omega)]
    exact isSafe_ofInt.2 hz

end SimplexScript.Number
