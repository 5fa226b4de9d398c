import SimplexScript.Json.Basic

/-!
# JSON tokens

The scanner takes one character at a time. A token stands at the offset, in
sixteen-bit units, of its first character; a malformed token is itself a
token, so the reader reports whichever flaw comes first.
-/

set_option autoImplicit false

namespace SimplexScript.Json

inductive Flaw where
  | endOfInput
  | unexpectedToken
  | unexpectedNumber
  | unexpectedString
  | other (reason : String)
  deriving DecidableEq

namespace Flaw

def propertyNameOrBrace : Flaw := other "Expected property name or '\x7d' in JSON"
def propertyName : Flaw := other "Expected double-quoted property name in JSON"
def colon : Flaw := other "Expected ':' after property name in JSON"
def commaOrBracket : Flaw := other "Expected ',' or ']' after array element in JSON"
def commaOrBrace : Flaw := other "Expected ',' or '\x7d' after property value in JSON"
def exponent : Flaw := other "Exponent part is missing a number in JSON"
def fraction : Flaw := other "Unterminated fractional number in JSON"
def minusSign : Flaw := other "No number after minus sign in JSON"
def openString : Flaw := other "Unterminated string in JSON"
def controlCharacter : Flaw := other "Bad control character in string literal in JSON"
def unicodeEscape : Flaw := other "Bad Unicode escape in JSON"
def escapedCharacter : Flaw := other "Bad escaped character in JSON"
def afterValue : Flaw := other "Unexpected non-whitespace character after JSON"

end Flaw

inductive Token where
  | mark (c : Char)
  | scalar (value : Json)
  | number (value : Number)
  | text (value : String)
  | bad (flaw : Flaw)

/-- What the scanner is in the middle of. Text is held as units, latest first. -/
inductive Mode where
  | idle
  | word (rest : List Char) (value : Json)
  | text (start : Nat) (units : List Nat)
  | escape (start : Nat) (units : List Nat)
  | code (start : Nat) (units : List Nat) (left : Nat) (value : Nat)
  | number (start : Nat) (chars : List Char)
  | failed

def unitChars : List Nat → List Char
  | [] => []
  | [m] => [if 0xD800 ≤ m ∧ m < 0xE000 then Char.ofNat 0xFFFD else Char.ofNat m]
  | m :: n :: rest =>
    if 0xD800 ≤ m ∧ m < 0xDC00 ∧ 0xDC00 ≤ n ∧ n < 0xE000 then
      Char.ofNat (0x10000 + (m - 0xD800) * 0x400 + (n - 0xDC00)) :: unitChars rest
    else
      (if 0xD800 ≤ m ∧ m < 0xE000 then Char.ofNat 0xFFFD else Char.ofNat m) :: unitChars (n :: rest)

def ofUnits (units : List Nat) : String := String.ofList (unitChars units)

def hexValue? (c : Char) : Option Nat :=
  let n := c.toNat
  if 48 ≤ n ∧ n ≤ 57 then some (n - 48)
  else if 97 ≤ n ∧ n ≤ 102 then some (n - 87)
  else if 65 ≤ n ∧ n ≤ 70 then some (n - 55)
  else none

def escapeUnit? (c : Char) : Option Nat :=
  if c = '"' ∨ c = '\\' ∨ c = '/' then some c.toNat
  else if c = 'b' then some 8
  else if c = 't' then some 9
  else if c = 'n' then some 10
  else if c = 'f' then some 12
  else if c = 'r' then some 13
  else none

def isNumberChar (c : Char) : Bool :=
  c.isDigit || decide (c = '-') || decide (c = '+') || decide (c = '.') || decide (c = 'e') ||
    decide (c = 'E')

def naturalOf (cs : List Char) : Nat := cs.foldl (fun n c => 10 * n + (c.toNat - '0'.toNat)) 0

def exponentOf (cs : List Char) : Bool × List Char :=
  match cs with
  | '-' :: rest => (true, rest)
  | '+' :: rest => (false, rest)
  | rest => (false, rest)

def numberTokens (start : Nat) (cs : List Char) : List (Nat × Token) :=
  let negative := cs.head? = some '-'
  let body := if negative then cs.drop 1 else cs
  let here := if negative then start + 1 else start
  let whole := body.takeWhile Char.isDigit
  let rest := body.dropWhile Char.isDigit
  if whole = [] then [(here, .bad .minusSign)]
  else if whole.head? = some '0' ∧ 1 < whole.length then [(here + 1, .bad .unexpectedNumber)]
  else
    let here := here + whole.length
    let pointed := rest.head? = some '.'
    let places := if pointed then (rest.drop 1).takeWhile Char.isDigit else []
    let rest' := if pointed then (rest.drop 1).dropWhile Char.isDigit else rest
    let here' := if pointed then here + 1 + places.length else here
    if pointed ∧ places = [] then [(here', .bad .fraction)]
    else
      let digits := naturalOf (whole ++ places)
      match rest' with
      | [] => [(start, .number (.ofDecimal negative digits (-(places.length : Int))))]
      | c :: tail =>
        if c = 'e' ∨ c = 'E' then
          let (down, tail') := exponentOf tail
          let power := tail'.takeWhile Char.isDigit
          let after := tail'.dropWhile Char.isDigit
          let here'' := here' + 1 + (tail.length - tail'.length)
          if power = [] then [(here'', .bad .exponent)]
          else
            let e : Int := if down then -(naturalOf power : Int) else naturalOf power
            let value := Number.ofDecimal negative digits (e - places.length)
            (start, .number value) ::
              (if after = [] then [] else [(here'' + power.length, .bad .unexpectedToken)])
        else
          [(start, .number (.ofDecimal negative digits (-(places.length : Int)))),
            (here', .bad .unexpectedToken)]

/-- The flaw of a character that no value continues or starts with. -/
def strayFlaw (c : Char) : Flaw :=
  if c = '"' then .unexpectedString
  else if c.isDigit || decide (c = '-') then .unexpectedNumber
  else .unexpectedToken

def isBlank (c : Char) : Bool :=
  decide (c = ' ') || decide (c = '\t') || decide (c = '\n') || decide (c = '\r')

def idleStep (pos : Nat) (c : Char) : List (Nat × Token) × Mode :=
  if isBlank c then ([], .idle)
  else if "[]\x7b\x7d:,".toList.contains c then ([(pos, .mark c)], .idle)
  else if c = '"' then ([], .text pos [])
  else if c.isDigit || decide (c = '-') then ([], .number pos [c])
  else if c = 't' then ([], .word ['r', 'u', 'e'] (.bool true))
  else if c = 'f' then ([], .word ['a', 'l', 's', 'e'] (.bool false))
  else if c = 'n' then ([], .word ['u', 'l', 'l'] .null)
  else ([(pos, .bad .unexpectedToken)], .failed)

/-- One character at offset `pos`: the tokens it completes and the next mode. -/
def scanStep (pos : Nat) (c : Char) : Mode → List (Nat × Token) × Mode
  | .idle => idleStep pos c
  | .word [] _ => idleStep pos c
  | .word [d] value =>
    if c = d then ([(pos, .scalar value)], .idle) else ([(pos, .bad (strayFlaw c))], .failed)
  | .word (d :: rest) value =>
    if c = d then ([], .word rest value) else ([(pos, .bad (strayFlaw c))], .failed)
  | .text start units =>
    if c = '"' then ([(start, .text (ofUnits units.reverse))], .idle)
    else if c = '\\' then ([], .escape start units)
    else if c.toNat < 0x20 then ([(pos, .bad .controlCharacter)], .failed)
    else ([], .text start ((Text.charUnits c).reverse ++ units))
  | .escape start units =>
    if c = 'u' then ([], .code start units 3 0)
    else match escapeUnit? c with
      | some n => ([], .text start (n :: units))
      | none => ([(pos, .bad .escapedCharacter)], .failed)
  | .code start units left value =>
    match hexValue? c with
    | none => ([(pos, .bad .unicodeEscape)], .failed)
    | some n =>
      match left with
      | 0 => ([], .text start ((16 * value + n) :: units))
      | more + 1 => ([], .code start units more (16 * value + n))
  | .number start cs =>
    if isNumberChar c then ([], .number start (c :: cs))
    else
      let (tokens, mode) := idleStep pos c
      (numberTokens start cs.reverse ++ tokens, mode)
  | .failed => ([], .failed)

def scanEnd (pos : Nat) : Mode → List (Nat × Token)
  | .idle => []
  | .word _ _ => [(pos, .bad .endOfInput)]
  | .text _ _ => [(pos, .bad .openString)]
  | .escape _ _ => [(pos, .bad .openString)]
  | .code _ _ _ _ => [(pos, .bad .unicodeEscape)]
  | .number start cs => numberTokens start cs.reverse
  | .failed => []

def scan (pos : Nat) (mode : Mode) (found : List (Nat × Token)) : List Char → List (Nat × Token)
  | [] => found.reverse ++ scanEnd pos mode
  | c :: rest =>
    let (tokens, mode') := scanStep pos c mode
    scan (pos + (Text.charUnits c).length) mode' (tokens.reverse ++ found) rest

def tokens (source : String) : List (Nat × Token) := scan 0 .idle [] source.toList

end SimplexScript.Json
