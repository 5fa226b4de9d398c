import SimplexScript.Listing

/-!
# Text

Text is compared by its sixteen-bit code units, so a character beyond the first
plane stands below the last characters of that plane. In quoted text quotes,
backslashes and control characters are escaped; every other character stands
for itself. A list of texts is written between brackets.
-/

set_option autoImplicit false

namespace SimplexScript.Text

/-- The units of one character: itself, or a high and a low surrogate. -/
def charUnits (c : Char) : List Nat :=
  let n := c.toNat
  if n < 0x10000 then [n]
  else [0xD800 + (n - 0x10000) / 0x400, 0xDC00 + (n - 0x10000) % 0x400]

def units (s : String) : List Nat := s.toList.flatMap charUnits

/-- Lexicographic order on lists of units, a proper beginning first. -/
def unitsLe : List Nat → List Nat → Bool
  | [], _ => true
  | _ :: _, [] => false
  | m :: ms, n :: ns => decide (m < n) || (decide (m = n) && unitsLe ms ns)

def le (s t : String) : Bool := unitsLe (units s) (units t)

def sorted (texts : List String) : List String :=
  (sortBy (fun a b => unitsLe a.1 b.1) (texts.map fun s => (units s, s))).map Prod.snd

def hexDigit (n : Nat) : Char :=
  if n < 10 then Char.ofNat ('0'.toNat + n) else Char.ofNat ('a'.toNat + (n - 10))

def escapeControl (n : Nat) : List Char :=
  match n with
  | 8 => ['\\', 'b']
  | 9 => ['\\', 't']
  | 10 => ['\\', 'n']
  | 12 => ['\\', 'f']
  | 13 => ['\\', 'r']
  | n => ['\\', 'u', '0', '0', hexDigit (n / 16), hexDigit (n % 16)]

def escape (c : Char) : List Char :=
  if c = '"' ∨ c = '\\' then ['\\', c]
  else if c.toNat < 0x20 then escapeControl c.toNat
  else [c]

/-- The rest of a quoted text, its closing quote and what follows it. -/
def escapeOnto : List Char → List Char → List Char
  | [], rest => '"' :: rest
  | c :: cs, rest => escape c ++ escapeOnto cs rest

def quotedOnto (s : String) (rest : List Char) : List Char := '"' :: escapeOnto s.toList rest

def quoted (s : String) : String := String.ofList (quotedOnto s [])

def elements : List String → List Char
  | [] => [']']
  | s :: rest => ',' :: quotedOnto s (elements rest)

def listChars : List String → List Char
  | [] => ['[', ']']
  | s :: rest => '[' :: quotedOnto s (elements rest)

def quotedList (texts : List String) : String := String.ofList (listChars texts)

end SimplexScript.Text
