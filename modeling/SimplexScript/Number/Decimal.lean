import SimplexScript.Number.Basic

/-!
# Decimal text of numbers

A number is written with the fewest digits that read back as the same number,
the nearest such digits first. Reading rounds the exact decimal value.
-/

set_option autoImplicit false

namespace SimplexScript.Number

def decimalValue (digits : Nat) (place : Int) : Rat :=
  if 0 ≤ place then Rat.ofInt (digits * Nat.pow 10 place.toNat : Nat)
  else mkRat digits (Nat.pow 10 (-place).toNat)

def digitCount (n : Nat) : Nat := (Nat.toDigits 10 n).length

def decimalRange : Int := 400

def ofDecimal (negative : Bool) (digits : Nat) (place : Int) : Number :=
  let size := (digitCount digits : Int) + place
  if digits = 0 ∨ size < -decimalRange then zero
  else if decimalRange < size then infinite negative
  else
    let a := round (decimalValue digits place)
    if negative then neg a else a

/-- The number of digits before the point, negative for zeros after it. -/
def decimalPoint (q : Rat) : Int :=
  if q.den = 1 then digitCount q.num.natAbs
  else (digitCount (q.num.natAbs * Nat.pow 10 400 / q.den) : Int) - 400

/-- Of two neighbours of a positive `q` on a decimal grid, the ones that read back as `q`. -/
def readBack (q : Rat) (place : Int) : List Nat :=
  let below := if 0 ≤ place then q.num.natAbs / (q.den * Nat.pow 10 place.toNat)
    else q.num.natAbs * Nat.pow 10 (-place).toNat / q.den
  [below, below + 1].filter fun d => decide (round (decimalValue d place) = finite q)

/-- Of the digits that read back, the nearest; on a tie the even ones. -/
def nearestDigits (q : Rat) (place : Int) : Option Nat :=
  match readBack q place with
  | [] => none
  | [d] => some d
  | d :: e :: _ =>
    let low := q - decimalValue d place
    let high := decimalValue e place - q
    if low < high then some d
    else if high < low then some e
    else if d % 2 = 0 then some d else some e

def searchDigits (q : Rat) (point : Int) : Nat → Nat → Nat × Int
  | 0, _ => (0, 0)
  | more + 1, n =>
    let place := point - n
    match nearestDigits q place with
    | some d => (d, place)
    | none => searchDigits q point more (n + 1)

def dropZeros (cs : List Char) : List Char :=
  (cs.reverse.dropWhile fun c => decide (c = '0')).reverse

def maxPositional : Int := 21

def minPositional : Int := -5

def zeros (n : Int) : List Char := List.replicate n.toNat '0'

/-- Lays out digits whose decimal point stands after the first `point` of them. -/
def layout (cs : List Char) (point : Int) : List Char :=
  if (cs.length : Int) ≤ point ∧ point ≤ maxPositional then cs ++ zeros (point - cs.length)
  else if 0 < point ∧ point ≤ maxPositional then
    cs.take point.toNat ++ '.' :: cs.drop point.toNat
  else if minPositional ≤ point ∧ point ≤ 0 then '0' :: '.' :: zeros (-point) ++ cs
  else
    let e := point - 1
    let mantissa := match cs with
      | c :: d :: rest => c :: '.' :: d :: rest
      | short => short
    mantissa ++ 'e' :: (if e < 0 then '-' else '+') :: Nat.toDigits 10 e.natAbs

def positiveChars (q : Rat) : List Char :=
  let point := decimalPoint q
  let (d, place) := searchDigits q point 17 1
  let cs := Nat.toDigits 10 d
  layout (dropZeros cs) (cs.length + place)

def text : Number → String
  | finite q =>
    if q.num = 0 then "0"
    else if q.num < 0 then String.ofList ('-' :: positiveChars (-q))
    else String.ofList (positiveChars q)
  | infinite false => "Infinity"
  | infinite true => "-Infinity"
  | nan => "NaN"

end SimplexScript.Number
