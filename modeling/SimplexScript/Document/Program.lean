import SimplexScript.Document.Check
import SimplexScript.Language.Value

/-!
# Checking programs

A program document has a version, perhaps a description, and commands. Forms
are chosen by their kind. A form of the right kind that only breaks bounds is
reported by those bounds; any other misfit is one issue at the form itself.
-/

set_option autoImplicit false

namespace SimplexScript.Document

structure Program where
  version : String
  description : Option String
  commands : List Command

def numberPoint? (cs : List Char) : Option (List Char) :=
  if (cs.takeWhile Char.isDigit).isEmpty then none
  else match cs.dropWhile Char.isDigit with
    | '.' :: rest => some rest
    | _ => none

def isSuffixChar (c : Char) : Bool := c.isDigit || c.isAlpha || decide (c = '.')

/-- The last number of a version, with an optional suffix behind a hyphen. -/
def isPatch (cs : List Char) : Bool :=
  !(cs.takeWhile Char.isDigit).isEmpty &&
    match cs.dropWhile Char.isDigit with
    | [] => true
    | '-' :: suffix => !suffix.isEmpty && suffix.all isSuffixChar
    | _ => false

def isVersion (s : String) : Bool :=
  match (numberPoint? s.toList).bind numberPoint? with
  | some rest => isPatch rest
  | none => false

def checkVersion : Option Json → Verdict String
  | some (.text s) =>
    .bounded s (if isVersion s then []
      else ["Invalid string: must match pattern /^\\d+\\.\\d+\\.\\d+(-[a-zA-Z0-9.]+)?$/"])
  | v => expected "string" v

def optional {α : Type} (check : Option Json → Verdict α) : Option Json → Verdict (Option α)
  | none => .accepted none
  | v => (check v).map some

def checkVertices (v : Option Json) : Verdict (List String) :=
  match checkList checkName v with
  | .accepted vertices =>
    .bounded vertices
      (if vertices.isEmpty then ["Too small: expected array to have >=1 items"] else [])
  | rejected => rejected

def checkPair : Option Json → Verdict (String × String)
  | some (.object fields) =>
    ((checkName (Table.get? fields "from")).under "from").both
      ((checkName (Table.get? fields "to")).under "to")
  | v => expected "object" v

def literalBounds (z : Int) : List String :=
  if z.natAbs ≤ Number.maxSafe then [] else ["Integer literal is not a safe integer"]

def formKind (fields : List (String × Json)) : String :=
  match Table.get? fields "kind" with
  | some (.text s) => s
  | _ => ""

def checkNameAt (fields : List (String × Json)) (name : String) : Verdict String :=
  (checkName (Table.get? fields name)).under name

mutual

def checkExpr : Json → Verdict Expr
  | .object fields =>
    Verdict.ofChoice <|
      match formKind fields with
      | "ident" => (checkNameAt fields "name").map .ident
      | "complexLit" =>
        ((checkVertices (Table.get? fields "vertices")).under "vertices").map .complexLit
      | "int" => ((checkInteger literalBounds (Table.get? fields "value")).under "value").map .int
      | "opCall" =>
        let mapping := optional (checkList checkPair) (Table.get? fields "mapping")
        ((checkNameAt fields "op").both (((exprsAt "args" fields).under "args").both
          (mapping.under "mapping"))).map fun (op, args, m) => .opCall op args m
      | "funCall" =>
        ((checkNameAt fields "name").both ((exprsAt "args" fields).under "args")).map
          fun (name, args) => .funCall name args
      | _ => .invalid
  | _ => .invalid

def exprAt (name : String) : List (String × Json) → Verdict Expr
  | [] => .invalid
  | (k, v) :: rest => if k = name then checkExpr v else exprAt name rest

def exprsAt (name : String) : List (String × Json) → Verdict (List Expr)
  | [] => expected "array" none
  | (k, v) :: rest => if k = name then checkExprs v else exprsAt name rest

def checkExprs : Json → Verdict (List Expr)
  | .array items => exprItems 0 items
  | v => expected "array" (some v)

def exprItems : Nat → List Json → Verdict (List Expr)
  | _, [] => .accepted []
  | n, v :: rest =>
    (((checkExpr v).under (toString n)).both (exprItems (n + 1) rest)).map fun e => e.1 :: e.2

end

mutual

def checkCommand : Json → Verdict Command
  | .object fields =>
    Verdict.ofChoice <|
      match formKind fields with
      | "complexDecl" =>
        ((checkNameAt fields "name").both ((exprAt "expr" fields).under "expr")).map
          fun (name, e) => .complexDecl name e
      | "vertexDecl" => (checkNameAt fields "name").map .vertexDecl
      | "assign" =>
        ((checkNameAt fields "name").both ((exprAt "expr" fields).under "expr")).map
          fun (name, e) => .assign name e
      | "if" =>
        (((exprAt "cond" fields).under "cond").both (((commandsAt "then" fields).under "then").both
          ((commandsAt "else" fields).under "else"))).map fun (e, yes, no) => .branch e yes no
      | "while" =>
        (((exprAt "cond" fields).under "cond").both ((commandsAt "body" fields).under "body")).map
          fun (e, body) => .loop e body
      | "functionDecl" =>
        let params := (checkList checkName (Table.get? fields "params")).under "params"
        ((checkNameAt fields "name").both (params.both ((exprAt "body" fields).under "body"))).map
          fun (name, ps, e) => .functionDecl ⟨name, ps, e⟩
      | _ => .invalid
  | _ => .invalid

def commandsAt (name : String) : List (String × Json) → Verdict (List Command)
  | [] => expected "array" none
  | (k, v) :: rest => if k = name then checkCommands v else commandsAt name rest

def checkCommands : Json → Verdict (List Command)
  | .array items => commandItems 0 items
  | v => expected "array" (some v)

def commandItems : Nat → List Json → Verdict (List Command)
  | _, [] => .accepted []
  | n, v :: rest =>
    (((checkCommand v).under (toString n)).both (commandItems (n + 1) rest)).map
      fun e => e.1 :: e.2

end

def checkProgram : Option Json → Verdict Program
  | some (.object fields) =>
    let version := (checkVersion (Table.get? fields "version")).under "version"
    let description :=
      (optional checkText (Table.get? fields "description")).under "description"
    let commands := (commandsAt "commands" fields).under "commands"
    (version.both (description.both commands)).map fun (v, d, cs) => ⟨v, d, cs⟩
  | v => expected "object" v

end SimplexScript.Document
