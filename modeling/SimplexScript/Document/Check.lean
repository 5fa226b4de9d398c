import SimplexScript.Complex.Summary

/-!
# Checks of plain data

A check accepts a value or gives every issue it met. An issue is soft when the
value has the right shape and only breaks a bound; among alternative shapes the
one that has only soft issues is taken to be the one meant. Texts, numbers,
lists, records and summaries are checked; a part that is missing is checked like
any other value and is called undefined.
-/

set_option autoImplicit false

namespace SimplexScript.Document

structure Issue where
  path : List String
  message : String
  soft : Bool
  deriving DecidableEq, Repr

def Issue.place (i : Issue) : String :=
  let text := String.intercalate "." i.path
  if text = "" then "$" else text

inductive Verdict (α : Type) where
  | accepted (value : α)
  | rejected (issues : List Issue)

namespace Verdict

def issues {α : Type} : Verdict α → List Issue
  | accepted _ => []
  | rejected is => is

def isAccepted {α : Type} : Verdict α → Bool
  | accepted _ => true
  | rejected _ => false

def map {α β : Type} (f : α → β) : Verdict α → Verdict β
  | accepted a => accepted (f a)
  | rejected is => rejected is

def both {α β : Type} : Verdict α → Verdict β → Verdict (α × β)
  | accepted a, accepted b => accepted (a, b)
  | accepted _, rejected others => rejected others
  | rejected is, accepted _ => rejected is
  | rejected is, rejected others => rejected (is ++ others)

def under {α : Type} (name : String) : Verdict α → Verdict α
  | accepted a => accepted a
  | rejected is => rejected (is.map fun i => { i with path := name :: i.path })

def hard {α : Type} (message : String) : Verdict α := rejected [⟨[], message, false⟩]

def bounded {α : Type} (value : α) (messages : List String) : Verdict α :=
  match messages with
  | [] => accepted value
  | _ => rejected (messages.map fun m => ⟨[], m, true⟩)

def invalid {α : Type} : Verdict α := hard "Invalid input"

/-- The verdict on a choice of shapes from that on the one shape of the right kind. -/
def ofChoice {α : Type} : Verdict α → Verdict α
  | accepted a => accepted a
  | rejected is => if is.all Issue.soft then rejected is else invalid

end Verdict

def kindOf : Option Json → String
  | some v => v.kind
  | none => "undefined"

def expected {α : Type} (what : String) (v : Option Json) : Verdict α :=
  .hard ("Invalid input: expected " ++ what ++ ", received " ++ kindOf v)

def checkText : Option Json → Verdict String
  | some (.text s) => .accepted s
  | v => expected "string" v

def checkName : Option Json → Verdict String
  | some (.text s) =>
    .bounded s (if s = "" then ["Too small: expected string to have >=1 characters"] else [])
  | v => expected "string" v

def checkItems {α : Type} (check : Option Json → Verdict α) : Nat → List Json → Verdict (List α)
  | _, [] => .accepted []
  | n, v :: rest =>
    (((check (some v)).under (toString n)).both (checkItems check (n + 1) rest)).map
      fun e => e.1 :: e.2

def checkList {α : Type} (check : Option Json → Verdict α) : Option Json → Verdict (List α)
  | some (.array items) => checkItems check 0 items
  | v => expected "array" v

def integerBounds (z : Int) : List String :=
  if (Number.maxSafe : Int) < z then ["Too big: expected int to be <=9007199254740991"]
  else if z < -(Number.maxSafe : Int) then ["Too small: expected int to be >=-9007199254740991"]
  else []

def checkInteger (bounds : Int → List String) : Option Json → Verdict Number
  | some (.number (.finite q)) =>
    match (Number.finite q).toInt? with
    | some z => .bounded (.finite q) (integerBounds z ++ bounds z)
    | none => .hard "Invalid input: expected int, received number"
  | v => expected "number" v

def checkEntries {α : Type} (check : Option Json → Verdict α) :
    Table String Json → Verdict (Table String α)
  | [] => .accepted []
  | (k, v) :: rest =>
    (((check (some v)).under k).both (checkEntries check rest)).map fun e => (k, e.1) :: e.2

/-- A plain record, its entries in the order in which a record lists them. -/
def checkRecord {α : Type} (check : Option Json → Verdict α) : Option Json → Verdict (Record α)
  | some (.object fields) =>
    (checkEntries check (Record.listing fields)).map fun entries => ⟨entries, true⟩
  | v => expected "record" v

def dimensionBounds (z : Int) : List String :=
  if z < -1 then ["Too small: expected number to be >=-1"] else []

def checkSummary : Option Json → Verdict Summary
  | some (.object fields) =>
    let part := Table.get? fields
    let dimension := (checkInteger dimensionBounds (part "dimension")).under "dimension"
    let simplices := (checkList (checkList checkText) (part "simplices")).under "simplices"
    let vertices := (checkList checkText (part "vertices")).under "vertices"
    let classes := (checkRecord (checkList checkText) (part "classes")).under "classes"
    (dimension.both (simplices.both (vertices.both classes))).map
      fun (d, ss, vs, cs) => ⟨d, ss, vs, cs⟩
  | v => expected "object" v

/-- Checks a summary once more. Classes that are not a plain record are refused. -/
def recheck (s : Summary) : Verdict Summary :=
  if s.classes.plain then checkSummary (some s.toJson)
  else Verdict.under "classes" (.hard "Invalid input: expected record, received Array")

end SimplexScript.Document
