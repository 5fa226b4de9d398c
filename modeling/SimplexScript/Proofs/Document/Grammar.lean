import SimplexScript.Document.Program
import SimplexScript.Proofs.Number.Exact

/-!
# The grammar of program documents

Which documents are programs, said without the checks, and what a program is
without the fields that its forms do not declare.
-/

set_option autoImplicit false

namespace SimplexScript.Document

section Grammar

/-- Digits, digits and digits between points, perhaps with letters, digits and points behind a
hyphen. -/
def IsVersion (s : String) : Prop :=
  ∃ major minor patch suffix : List Char,
    s.toList = major ++ '.' :: (minor ++ '.' :: (patch ++ suffix)) ∧
    (∀ digits ∈ [major, minor, patch], digits ≠ [] ∧ ∀ c ∈ digits, c.isDigit = true) ∧
    (suffix = [] ∨ ∃ cs, suffix = '-' :: cs ∧ cs ≠ [] ∧
      ∀ c ∈ cs, c.isAlphanum = true ∨ c = '.')

def HasKind (fields : List (String × Json)) (kind : String) : Prop :=
  Table.get? fields "kind" = some (.text kind)

def HasName (fields : List (String × Json)) (key : String) : Prop :=
  ∃ name, Table.get? fields key = some (.text name) ∧ name ≠ ""

def HasNames (fields : List (String × Json)) (key : String) (names : List String) : Prop :=
  Table.get? fields key = some (.texts names) ∧ ∀ name ∈ names, name ≠ ""

inductive IsPair : Json → Prop
  | pair {fields : List (String × Json)} (source : HasName fields "from")
      (target : HasName fields "to") : IsPair (.object fields)

inductive IsExpr : Json → Prop
  | ident {fields : List (String × Json)} (kind : HasKind fields "ident")
      (name : HasName fields "name") : IsExpr (.object fields)
  | complexLit {fields : List (String × Json)} {names : List String}
      (kind : HasKind fields "complexLit") (vertices : HasNames fields "vertices" names)
      (nonempty : names ≠ []) : IsExpr (.object fields)
  | int {fields : List (String × Json)} {z : Int} (kind : HasKind fields "int")
      (value : Table.get? fields "value" = some (.ofInt z)) (safe : z.natAbs < 2 ^ 53) :
      IsExpr (.object fields)
  | opCall {fields : List (String × Json)} {items : List Json} (kind : HasKind fields "opCall")
      (op : HasName fields "op") (args : Table.get? fields "args" = some (.array items))
      (each : ∀ v ∈ items, IsExpr v)
      (mapping : ∀ v, Table.get? fields "mapping" = some v →
        ∃ pairs, v = .array pairs ∧ ∀ w ∈ pairs, IsPair w) : IsExpr (.object fields)
  | funCall {fields : List (String × Json)} {items : List Json} (kind : HasKind fields "funCall")
      (name : HasName fields "name") (args : Table.get? fields "args" = some (.array items))
      (each : ∀ v ∈ items, IsExpr v) : IsExpr (.object fields)

def HasExpr (fields : List (String × Json)) (key : String) : Prop :=
  ∃ v, Table.get? fields key = some v ∧ IsExpr v

inductive IsCommand : Json → Prop
  | complexDecl {fields : List (String × Json)} (kind : HasKind fields "complexDecl")
      (name : HasName fields "name") (expr : HasExpr fields "expr") : IsCommand (.object fields)
  | vertexDecl {fields : List (String × Json)} (kind : HasKind fields "vertexDecl")
      (name : HasName fields "name") : IsCommand (.object fields)
  | assign {fields : List (String × Json)} (kind : HasKind fields "assign")
      (name : HasName fields "name") (expr : HasExpr fields "expr") : IsCommand (.object fields)
  | branch {fields : List (String × Json)} {yes no : List Json} (kind : HasKind fields "if")
      (cond : HasExpr fields "cond") (hyes : Table.get? fields "then" = some (.array yes))
      (hno : Table.get? fields "else" = some (.array no)) (yesEach : ∀ v ∈ yes, IsCommand v)
      (noEach : ∀ v ∈ no, IsCommand v) : IsCommand (.object fields)
  | loop {fields : List (String × Json)} {body : List Json} (kind : HasKind fields "while")
      (cond : HasExpr fields "cond") (hbody : Table.get? fields "body" = some (.array body))
      (each : ∀ v ∈ body, IsCommand v) : IsCommand (.object fields)
  | functionDecl {fields : List (String × Json)} {names : List String}
      (kind : HasKind fields "functionDecl") (name : HasName fields "name")
      (params : HasNames fields "params" names) (body : HasExpr fields "body") :
      IsCommand (.object fields)

inductive IsProgram : Json → Prop
  | program {fields : List (String × Json)} {version : String} {items : List Json}
      (hversion : Table.get? fields "version" = some (.text version)) (form : IsVersion version)
      (description : ∀ v, Table.get? fields "description" = some v → ∃ s, v = .text s)
      (commands : Table.get? fields "commands" = some (.array items))
      (each : ∀ v ∈ items, IsCommand v) : IsProgram (.object fields)

end Grammar

section Declared

inductive Role where
  | data
  | form
  | forms
  | pair
  | pairs
  | program

def formFields : String → List (String × Role)
  | "ident" => [("name", .data)]
  | "complexLit" => [("vertices", .data)]
  | "int" => [("value", .data)]
  | "opCall" => [("op", .data), ("args", .forms), ("mapping", .pairs)]
  | "funCall" => [("name", .data), ("args", .forms)]
  | "complexDecl" => [("name", .data), ("expr", .form)]
  | "vertexDecl" => [("name", .data)]
  | "assign" => [("name", .data), ("expr", .form)]
  | "if" => [("cond", .form), ("then", .forms), ("else", .forms)]
  | "while" => [("cond", .form), ("body", .forms)]
  | "functionDecl" => [("name", .data), ("params", .data), ("body", .form)]
  | _ => []

namespace Role

def fields (r : Role) (kind : String) : List (String × Role) :=
  match r with
  | form => ("kind", data) :: formFields kind
  | pair => [("from", data), ("to", data)]
  | program => [("version", data), ("description", data), ("commands", forms)]
  | _ => []

def item : Role → Role
  | forms => form
  | pairs => pair
  | _ => data

mutual

/-- A value without the fields that are not declared, at every level. -/
def keep : Role → Json → Json
  | data, v => v
  | r, .object fields =>
    .object ((r.fields (formKind fields)).flatMap fun d => keepAt d.1 d.2 fields)
  | r, .array items => .array (keepItems r.item items)
  | _, v => v

def keepAt (name : String) (r : Role) : List (String × Json) → List (String × Json)
  | [] => []
  | (k, v) :: rest => if k = name then [(name, r.keep v)] else keepAt name r rest

def keepItems (r : Role) : List Json → List Json
  | [] => []
  | v :: rest => r.keep v :: keepItems r rest

end

@[simp] theorem keep_data (v : Json) : data.keep v = v := by
  cases v <;> rfl

theorem keep_object {r : Role} (h : r ≠ data) (fields : List (String × Json)) :
    r.keep (.object fields) =
      .object ((r.fields (formKind fields)).flatMap fun d => keepAt d.1 d.2 fields) := by
  rw [keep]
  exact h

theorem keepItems_eq_map (r : Role) (items : List Json) : keepItems r items = items.map r.keep := by
  induction items with
  | nil => rfl
  | cons v rest ih => rw [keepItems, ih, List.map_cons]

theorem keep_array {r : Role} (h : r ≠ data) (items : List Json) :
    r.keep (.array items) = .array (items.map r.item.keep) := by
  rw [keep, keepItems_eq_map]
  exact h

variable {fields : List (String × Json)} {name : String} {v : Json}

theorem keepAt_of_get? (h : Table.get? fields name = some v) (r : Role) :
    keepAt name r fields = [(name, r.keep v)] := by
  induction fields with
  | nil => cases h
  | cons e rest ih =>
    obtain ⟨k, w⟩ := e
    by_cases hk : k = name
    · simp only [Table.get?, hk, if_true, Option.some.injEq] at h
      rw [keepAt, if_pos hk, h]
    · simp only [Table.get?, hk, if_false] at h
      rw [keepAt, if_neg hk, ih h]

theorem keepAt_of_get?_none (h : Table.get? fields name = none) (r : Role) :
    keepAt name r fields = [] := by
  induction fields with
  | nil => rfl
  | cons e rest ih =>
    obtain ⟨k, w⟩ := e
    by_cases hk : k = name
    · simp [Table.get?, hk] at h
    · simp only [Table.get?, hk, if_false] at h
      rw [keepAt, if_neg hk, ih h]

end Role

theorem HasKind.formKind_eq {fields : List (String × Json)} {kind : String}
    (h : HasKind fields kind) : formKind fields = kind := by
  unfold HasKind at h
  simp [formKind, h]

theorem hasKind_of_formKind {fields : List (String × Json)} {kind : String}
    (h : formKind fields = kind) (hne : kind ≠ "") : HasKind fields kind := by
  unfold formKind at h
  split at h
  next s hs => exact h ▸ hs
  next => exact absurd h.symm hne

theorem HasKind.keep {fields : List (String × Json)} {kind : String} (h : HasKind fields kind) :
    Role.form.keep (.object fields) = .object (("kind", .text kind) ::
      (formFields kind).flatMap fun d => Role.keepAt d.1 d.2 fields) := by
  rw [Role.keep_object (by simp), h.formKind_eq, Role.fields, List.flatMap_cons,
    Role.keepAt_of_get? h, Role.keep_data]
  rfl

end Declared

end SimplexScript.Document
