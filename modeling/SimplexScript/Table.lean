import SimplexScript.Listing

/-!
# Tables and records

A table lists its entries in the order in which their keys were first set.
Setting a key again changes its value and keeps its place. A record lists text
keys in a fixed order: keys that are array indices come first, in increasing
order, then the others as they were first set. One key is reserved: setting it
adds no entry, and the record no longer passes for plain unless an entry hides
that.
-/

set_option autoImplicit false

namespace SimplexScript

abbrev Table (κ α : Type) := List (κ × α)

namespace Table

def get? {κ α : Type} [DecidableEq κ] : Table κ α → κ → Option α
  | [], _ => none
  | (k', a) :: t, k => if k' = k then some a else get? t k

def contains {κ α : Type} [DecidableEq κ] (t : Table κ α) (k : κ) : Bool :=
  (get? t k).isSome

def keys {κ α : Type} (t : Table κ α) : List κ := t.map Prod.fst

def set {κ α : Type} [DecidableEq κ] : Table κ α → κ → α → Table κ α
  | [], k, a => [(k, a)]
  | (k', a') :: t, k, a => if k' = k then (k', a) :: t else (k', a') :: set t k a

theorem get?_set {κ α : Type} [DecidableEq κ] (t : Table κ α) (k : κ) (a : α) (j : κ) :
    get? (set t k a) j = if k = j then some a else get? t j := by
  induction t with
  | nil => rfl
  | cons e t ih =>
    obtain ⟨i, b⟩ := e
    by_cases h : i = k
    · subst h
      by_cases hj : i = j <;> simp [set, get?, hj]
    · by_cases hj : i = j
      · subst hj
        have hk : ¬k = i := fun e => h e.symm
        simp [set, get?, h, hk]
      · simp [set, get?, h, hj, ih]

theorem contains_iff {κ α : Type} [DecidableEq κ] (t : Table κ α) (k : κ) :
    contains t k = true ↔ k ∈ keys t := by
  induction t with
  | nil => simp [contains, get?, keys]
  | cons e t ih =>
    obtain ⟨i, b⟩ := e
    by_cases h : i = k
    · simp [contains, get?, keys, h]
    · have hk : ¬k = i := fun e => h e.symm
      simpa [contains, get?, keys, h, hk] using ih

theorem keys_set {κ α : Type} [DecidableEq κ] (t : Table κ α) (k : κ) (a : α) :
    keys (set t k a) = if contains t k then keys t else keys t ++ [k] := by
  induction t with
  | nil => rfl
  | cons e t ih =>
    obtain ⟨i, b⟩ := e
    by_cases h : i = k
    · simp [set, keys, contains, get?, h]
    · by_cases hk : (get? t k).isSome <;> simp_all [set, keys, contains, get?]

def setAll {κ α : Type} [DecidableEq κ] (t entries : Table κ α) : Table κ α :=
  entries.foldl (fun t e => set t e.1 e.2) t

/-- Gathers the elements that share a key under that key, all in order of appearance. -/
def groupBy {κ α : Type} [DecidableEq κ] (key : α → κ) (xs : List α) : Table κ (List α) :=
  (distinct (xs.map key)).map fun k => (k, xs.filter fun x => decide (key x = k))

end Table

structure Record (α : Type) where
  entries : Table String α
  plain : Bool

namespace Record

def reservedKey : String := "__proto__"

/-- The key whose entry hides that the reserved key was set. -/
def hidingKey : String := "constructor"

def maxIndex : Nat := 4294967294

def digitsValue (cs : List Char) : Nat :=
  cs.foldl (fun n c => 10 * n + (c.toNat - '0'.toNat)) 0

/-- The value of a decimal numeral without leading zeros that is an array index. -/
def arrayIndex? (key : String) : Option Nat :=
  let cs := key.toList
  let plain := match cs with
    | [] => false
    | ['0'] => true
    | c :: _ => !decide (c = '0')
  if plain && cs.all Char.isDigit && decide (cs.length ≤ 10) then
    let n := digitsValue cs
    if n ≤ maxIndex then some n else none
  else none

def listing {α : Type} (t : Table String α) : Table String α :=
  let t := t.filter fun e => !decide (e.1 = reservedKey)
  let indexed := t.filterMap fun e => (arrayIndex? e.1).map fun i => (i, e)
  let others := t.filter fun e => (arrayIndex? e.1).isNone
  (sortBy (fun a b => decide (a.1 ≤ b.1)) indexed).map Prod.snd ++ others

def ofTable {α : Type} (t : Table String α) : Record α :=
  ⟨listing t, !Table.contains t reservedKey || Table.contains t hidingKey⟩

end Record

end SimplexScript
