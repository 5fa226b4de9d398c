import SimplexScript.Json.Token

/-!
# Reading JSON

The reader consumes tokens with the containers still open held in a list, the
innermost first. A field that is set twice keeps its place and its last value.
-/

set_option autoImplicit false

namespace SimplexScript.Json

/-- An open container. Items are held latest first; an object waits for the field `key`. -/
inductive Frame where
  | array (items : List Json)
  | object (fields : List (String × Json)) (key : String)

inductive Expect where
  | value
  | itemOrEnd
  | nameOrEnd (fields : List (String × Json))
  | name (fields : List (String × Json))
  | colon (fields : List (String × Json)) (key : String)
  | afterItem (items : List Json)
  | afterField (fields : List (String × Json))
  | nothing (value : Json)

structure Progress where
  expect : Expect
  containers : List Frame

def supply (v : Json) : List Frame → Progress
  | [] => ⟨.nothing v, []⟩
  | .array items :: frames => ⟨.afterItem (v :: items), frames⟩
  | .object fields key :: frames => ⟨.afterField (Table.set fields key v), frames⟩

def startValue (frames : List Frame) : Token → Except Flaw Progress
  | .scalar v => .ok (supply v frames)
  | .number a => .ok (supply (.number a) frames)
  | .text s => .ok (supply (.text s) frames)
  | .mark c =>
    if c = '[' then .ok ⟨.itemOrEnd, frames⟩
    else if c = '\x7b' then .ok ⟨.nameOrEnd [], frames⟩
    else .error .unexpectedToken
  | .bad flaw => .error flaw

/-- A malformed string or number keeps its own flaw, a stray character does not. -/
def orElse (t : Token) (flaw : Flaw) : Flaw :=
  match t with
  | .bad (.other reason) => .other reason
  | _ => flaw

def readStep (p : Progress) (t : Token) : Except Flaw Progress :=
  match p.expect, t with
  | .value, t => startValue p.containers t
  | .itemOrEnd, .mark ']' => .ok (supply (.array []) p.containers)
  | .itemOrEnd, t => startValue (.array [] :: p.containers) t
  | .nameOrEnd fields, .mark '\x7d' => .ok (supply (.object fields) p.containers)
  | .nameOrEnd fields, .text s => .ok ⟨.colon fields s, p.containers⟩
  | .nameOrEnd _, t => .error (orElse t .propertyNameOrBrace)
  | .name fields, .text s => .ok ⟨.colon fields s, p.containers⟩
  | .name _, t => .error (orElse t .propertyName)
  | .colon fields key, .mark ':' => .ok ⟨.value, .object fields key :: p.containers⟩
  | .colon _ _, t => .error (orElse t .colon)
  | .afterItem items, .mark ',' => .ok ⟨.value, .array items :: p.containers⟩
  | .afterItem items, .mark ']' => .ok (supply (.array items.reverse) p.containers)
  | .afterItem _, t => .error (orElse t .commaOrBracket)
  | .afterField fields, .mark ',' => .ok ⟨.name fields, p.containers⟩
  | .afterField fields, .mark '\x7d' => .ok (supply (.object fields) p.containers)
  | .afterField _, t => .error (orElse t .commaOrBrace)
  | .nothing _, _ => .error .afterValue

def readEnd (p : Progress) : Except Flaw Json :=
  match p.expect with
  | .nothing v => .ok v
  | .value => .error .endOfInput
  | .itemOrEnd => .error .endOfInput
  | .nameOrEnd _ => .error .propertyNameOrBrace
  | .name _ => .error .propertyName
  | .colon _ _ => .error .colon
  | .afterItem _ => .error .commaOrBracket
  | .afterField _ => .error .commaOrBrace

def readTokens (size : Nat) (p : Progress) : List (Nat × Token) → Except (Nat × Flaw) Json
  | [] => match readEnd p with
    | .ok v => .ok v
    | .error flaw => .error (size, flaw)
  | (pos, t) :: rest => match readStep p t with
    | .ok p' => readTokens size p' rest
    | .error flaw => .error (pos, flaw)

def contextUnits : Nat := 10

def flawMessage (source : String) (pos : Nat) (flaw : Flaw) : String :=
  let units := Text.units source
  let line := units.take pos |>.filter (fun u => decide (u = 10)) |>.length
  let column := ((units.take pos).reverse.takeWhile fun u => !decide (u = 10)).length
  let place := " at position " ++ toString pos ++ " (line " ++ toString (line + 1) ++ " column " ++
    toString (column + 1) ++ ")"
  match flaw with
  | .endOfInput => "Unexpected end of JSON input"
  | .unexpectedNumber => "Unexpected number in JSON" ++ place
  | .unexpectedString => "Unexpected string in JSON" ++ place
  | .other reason => reason ++ place
  | .unexpectedToken =>
    let found := "Unexpected token '" ++ ofUnits ((units.drop pos).take 1) ++ "', "
    let near := fun (first last : Nat) => "\"" ++ ofUnits ((units.take last).drop first) ++ "\""
    let shown :=
      if units.length ≤ 2 * contextUnits then near 0 units.length
      else if pos < contextUnits then near 0 (pos + contextUnits) ++ "..."
      else if pos + contextUnits < units.length then
        "..." ++ near (pos - contextUnits) (pos + contextUnits) ++ "..."
      else "..." ++ near (pos - contextUnits) units.length
    found ++ shown ++ " is not valid JSON"

def parse (source : String) : Except String Json :=
  match readTokens (Text.units source).length ⟨.value, []⟩ (tokens source) with
  | .ok v => .ok v
  | .error (pos, flaw) => .error (flawMessage source pos flaw)

end SimplexScript.Json
