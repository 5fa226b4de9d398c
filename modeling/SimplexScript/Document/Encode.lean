import SimplexScript.Document.Program

/-!
# Program documents as JSON

Every form is written with its kind and its declared fields, an optional
field only if it is there.
-/

set_option autoImplicit false

namespace SimplexScript

def encodePair (e : String × String) : Json := .object [("from", .text e.1), ("to", .text e.2)]

def encodeMapping : Option Complex.Mapping → List (String × Json)
  | none => []
  | some m => [("mapping", .array (m.map encodePair))]

mutual

def Expr.toJson : Expr → Json
  | .ident name => .object [("kind", .text "ident"), ("name", .text name)]
  | .complexLit vertices =>
    .object [("kind", .text "complexLit"), ("vertices", Json.texts vertices)]
  | .int value => .object [("kind", .text "int"), ("value", .number value)]
  | .opCall op args mapping =>
    .object ([("kind", .text "opCall"), ("op", .text op), ("args", .array (encodeExprs args))] ++
      encodeMapping mapping)
  | .funCall name args =>
    .object [("kind", .text "funCall"), ("name", .text name), ("args", .array (encodeExprs args))]
  | .unknown => .object []

def encodeExprs : List Expr → List Json
  | [] => []
  | e :: es => e.toJson :: encodeExprs es

end

mutual

def Command.toJson : Command → Json
  | .complexDecl name e =>
    .object [("kind", .text "complexDecl"), ("name", .text name), ("expr", e.toJson)]
  | .vertexDecl name => .object [("kind", .text "vertexDecl"), ("name", .text name)]
  | .assign name e => .object [("kind", .text "assign"), ("name", .text name), ("expr", e.toJson)]
  | .branch cond yes no =>
    .object [("kind", .text "if"), ("cond", cond.toJson), ("then", .array (encodeCommands yes)),
      ("else", .array (encodeCommands no))]
  | .loop cond body =>
    .object [("kind", .text "while"), ("cond", cond.toJson), ("body", .array (encodeCommands body))]
  | .functionDecl fn =>
    .object [("kind", .text "functionDecl"), ("name", .text fn.name),
      ("params", Json.texts fn.params), ("body", fn.body.toJson)]
  | .unknown => .object []

def encodeCommands : List Command → List Json
  | [] => []
  | c :: cs => c.toJson :: encodeCommands cs

end

namespace Document

def Program.toJson (p : Program) : Json :=
  let description := match p.description with
    | some text => [("description", Json.text text)]
    | none => []
  .object ([("version", .text p.version)] ++ description ++
    [("commands", .array (encodeCommands p.commands))])

end Document

end SimplexScript
