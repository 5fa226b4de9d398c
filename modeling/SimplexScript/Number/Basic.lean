/-!
# Numbers

A number is a rational with a 53-bit significand and a bounded exponent, an
infinity, or the undefined number. Sums, differences and products are exact
results rounded to the nearest such rational, a tie to the even significand.
-/

set_option autoImplicit false

namespace SimplexScript

inductive Number where
  | finite (value : Rat)
  | infinite (negative : Bool)
  | nan
  deriving DecidableEq

namespace Number

def ofInt (z : Int) : Number := .finite (Rat.ofInt z)

def zero : Number := ofInt 0

/-- The integer nearest to `n / d`, a half going to the even neighbour. -/
def nearestEven (n : Int) (d : Nat) : Int :=
  let k := n / (d : Int)
  let r := n % (d : Int)
  if 2 * r < d then k else if (d : Int) < 2 * r then k + 1 else k + k % 2

def significand (q : Rat) (e : Int) : Int :=
  if 0 ≤ e then nearestEven q.num (q.den * Nat.pow 2 e.toNat)
  else nearestEven (q.num * (Nat.pow 2 (-e).toNat : Nat)) q.den

/-- The exponent of the greatest power of two that does not exceed a nonzero `q` in size. -/
def binaryExponent (q : Rat) : Int :=
  let n := q.num.natAbs
  let e : Int := (Nat.log2 n : Int) - (Nat.log2 q.den : Int)
  let reached := if 0 ≤ e then decide (q.den * Nat.pow 2 e.toNat ≤ n)
    else decide (q.den ≤ n * Nat.pow 2 (-e).toNat)
  if reached then e else e - 1

/-- The exponent of the last place kept: 53 bits, and no finer than the smallest number. -/
def lastPlace (q : Rat) : Int :=
  let e := binaryExponent q - 52
  if e < -1074 then -1074 else e

def scaled (m e : Int) : Rat :=
  if 0 ≤ e then Rat.ofInt (m * (Nat.pow 2 e.toNat : Nat)) else mkRat m (Nat.pow 2 (-e).toNat)

def overflows (m e : Int) : Bool :=
  decide (971 < e) || (decide (e = 971) && decide (Nat.pow 2 53 ≤ m.natAbs))

def round (q : Rat) : Number :=
  if q.num = 0 then zero
  else
    let e := lastPlace q
    let m := significand q e
    if overflows m e then .infinite (decide (q.num < 0)) else .finite (scaled m e)

def neg : Number → Number
  | finite a => finite (-a)
  | infinite s => infinite !s
  | nan => nan

def add : Number → Number → Number
  | finite a, finite b => round (a + b)
  | infinite s, infinite t => if s = t then infinite s else nan
  | infinite s, finite _ => infinite s
  | finite _, infinite t => infinite t
  | nan, _ => nan
  | _, nan => nan

def sub (a b : Number) : Number := add a (neg b)

def scaleInfinite (s : Bool) (q : Rat) : Number :=
  if q.num = 0 then nan else infinite (s != decide (q.num < 0))

def mul : Number → Number → Number
  | finite a, finite b => round (a * b)
  | infinite s, infinite t => infinite (s != t)
  | infinite s, finite b => scaleInfinite s b
  | finite a, infinite t => scaleInfinite t a
  | nan, _ => nan
  | _, nan => nan

def lt : Number → Number → Bool
  | finite a, finite b => decide (a < b)
  | infinite s, infinite t => s && !t
  | infinite s, finite _ => s
  | finite _, infinite t => !t
  | nan, _ => false
  | _, nan => false

def le (a b : Number) : Bool := lt a b || (decide (a = b) && !decide (a = nan))

def maxSafe : Nat := 9007199254740991

def toInt? : Number → Option Int
  | finite q => if q.den = 1 then some q.num else none
  | _ => none

def isSafe (a : Number) : Bool :=
  match a.toInt? with
  | some z => decide (z.natAbs ≤ maxSafe)
  | none => false

/-- How many steps a counter in rounded sums takes from zero before it meets a limit. The sums rest
at 2 ^ 53, so a limit above is never met, which leaves more steps than any that is. -/
def countBelow : Number → Nat
  | finite q => if q ≤ Rat.ofInt (Nat.pow 2 53 : Nat) then q.ceil.toNat else Nat.pow 2 1024
  | infinite true => 0
  | infinite false => Nat.pow 2 1024
  | nan => Nat.pow 2 1024

end Number

end SimplexScript
