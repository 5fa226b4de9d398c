import SimplexScript.Number.Decimal
import SimplexScript.Table
import SimplexScript.Text

/-!
# JSON values

Objects keep their fields in the order of first mention. Writing is compact;
a number that is not finite has no JSON form and is written as null.
-/

set_option autoImplicit false

namespace SimplexScript

inductive Json where
  | null
  | bool (value : Bool)
  | number (value : Number)
  | text (value : String)
  | array (items : List Json)
  | object (fields : List (String × Json))

namespace Json

def ofInt (z : Int) : Json := .number (.ofInt z)

def texts (values : List String) : Json := .array (values.map .text)

def kind : Json → String
  | null => "null"
  | bool _ => "boolean"
  | number (.infinite false) => "Infinity"
  | number (.infinite true) => "-Infinity"
  | number .nan => "NaN"
  | number (.finite _) => "number"
  | text _ => "string"
  | array _ => "array"
  | object _ => "object"

/-- The field of an object; any other value has no fields. -/
def field? : Json → String → Option Json
  | object fields, name => Table.get? fields name
  | _, _ => none

def numberText : Number → String
  | .finite q => Number.text (.finite q)
  | _ => "null"

mutual

def write (out : String) : Json → String
  | null => out ++ "null"
  | bool true => out ++ "true"
  | bool false => out ++ "false"
  | number a => out ++ numberText a
  | text s => out ++ Text.quoted s
  | array [] => out ++ "[]"
  | array (v :: rest) => writeItems (write (out ++ "[") v) rest ++ "]"
  | object [] => out ++ "\x7b\x7d"
  | object ((k, v) :: rest) =>
    writeFields (write (out ++ "\x7b" ++ Text.quoted k ++ ":") v) rest ++ "\x7d"

def writeItems (out : String) : List Json → String
  | [] => out
  | v :: rest => writeItems (write (out ++ ",") v) rest

def writeFields (out : String) : List (String × Json) → String
  | [] => out
  | (k, v) :: rest => writeFields (write (out ++ "," ++ Text.quoted k ++ ":") v) rest

end

def render (v : Json) : String := write "" v

end Json

end SimplexScript
