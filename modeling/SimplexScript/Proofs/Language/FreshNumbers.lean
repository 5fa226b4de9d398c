import Mathlib.Order.Bounds.Basic
import SimplexScript.Proofs.Language.FreshVertices

/-!
# The numbers of fresh vertices

The search for a fresh vertex counts up while the numbered names are taken.
Different numbers give different names, so an order of `n` names takes at most
`n` rounds, whatever the names are, if a number below 2 ^ 53 is free. There the
counter comes to rest, and a search that gets so far ends only if that last
number is free.
-/

set_option autoImplicit false

namespace SimplexScript.State

/-- The loop that goes on to the next number as long as the name of one is in the order: from the
first number it ends at the last after so many rounds. -/
inductive Seeks (order : Table String Number) : Nat → Number → Number → Prop
  | done {a : Number} (h : Table.contains order ("__v" ++ a.text) = false) : Seeks order 0 a a
  | round {n : Nat} {a b : Number} (h : Table.contains order ("__v" ++ a.text) = true)
      (rest : Seeks order n (a.add (.ofInt 1)) b) : Seeks order (n + 1) a b

section Search

variable {order : Table String Number} {z : Int}

theorem contains_ofInt (hz : z.natAbs ≤ 2 ^ 53) :
    Table.contains order ("__v" ++ (Number.ofInt z).text) = true ↔
      freshName z ∈ Table.keys order := by
  rw [Table.contains_iff, Number.text_ofInt hz, freshName]

theorem seeks_of_declared {n : Nat} (hlow : -2 ^ 53 ≤ z) (hup : z + n ≤ 2 ^ 53)
    (hskipped : ∀ j, z ≤ j → j < z + n → freshName j ∈ Table.keys order)
    (hnew : freshName (z + n) ∉ Table.keys order) :
    Seeks order n (.ofInt z) (.ofInt (z + n)) := by
  induction n generalizing z with
  | zero =>
    rw [Int.natCast_zero, Int.add_zero] at hnew ⊢
    exact .done (Bool.eq_false_iff.2 (mt (contains_ofInt (by omega)).1 hnew))
  | succ n ih =>
    have hend : z + (n + 1 : Nat) = z + 1 + n := by omega
    rw [hend] at hup hnew ⊢
    refine .round ((contains_ofInt (by omega)).2 (hskipped z (by omega) (by omega))) ?_
    rw [Number.add_one_int hlow (by omega)]
    exact ih (by omega) hup (fun j hj hlt => hskipped j (by omega) (by omega)) hnew

theorem not_seeks_of_declared (hlow : -2 ^ 53 ≤ z) (hz : z ≤ 2 ^ 53)
    (hall : ∀ j, z ≤ j → j ≤ 2 ^ 53 → freshName j ∈ Table.keys order) (n : Nat) (b : Number) :
    ¬ Seeks order n (.ofInt z) b := by
  induction n generalizing z with
  | zero =>
    rintro ⟨hfree⟩
    rw [(contains_ofInt (by omega)).2 (hall z (by omega) hz)] at hfree
    cases hfree
  | succ n ih =>
    rintro (_ | ⟨-, hrest⟩)
    rcases Int.lt_or_eq_of_le hz with hlt | rfl
    · rw [Number.add_one_int hlow hlt] at hrest
      exact ih (by omega) (by omega) (fun j hj => hall j (by omega)) hrest
    · rw [counter_rests] at hrest
      exact ih hlow hz hall hrest

end Search

theorem register_of_not_mem {order : Table String Number} {v : String}
    (h : v ∉ Table.keys order) : register order v = order ++ [(v, .ofInt order.length)] :=
  if_neg (mt (Table.contains_iff order v).1 h)

/-- Whatever names the order holds, if a number below 2 ^ 53 is free from the next one on, then the
search for a fresh vertex ends after at most as many rounds as the order holds names, at the least
free number. Its name is appended to the order with the next index, the number after it becomes the
next one, and nothing else changes. A number is free if the order is too short to take them all. -/
theorem fresh_takes_least_free (s : State) {z : Int} (hlow : -2 ^ 53 ≤ z)
    (hid : s.freshVertexId = .ofInt z) :
    (z + s.vertexOrder.length < 2 ^ 53 →
      ∃ id, z ≤ id ∧ id < 2 ^ 53 ∧ "__v" ++ toString id ∉ Table.keys s.vertexOrder) ∧
    ((∃ id, z ≤ id ∧ id < 2 ^ 53 ∧ "__v" ++ toString id ∉ Table.keys s.vertexOrder) →
      ∃ (n : Nat) (r : Int), n ≤ s.vertexOrder.length ∧
        Seeks s.vertexOrder n s.freshVertexId (.ofInt r) ∧
        IsLeast {id : Int | z ≤ id ∧ "__v" ++ toString id ∉ Table.keys s.vertexOrder} r ∧
        s.fresh = .ok ("__v" ++ toString r, { s with
          freshVertexId := .ofInt (r + 1)
          vertexOrder := s.vertexOrder ++
            [("__v" ++ toString r, .ofInt s.vertexOrder.length)] }) ∧
        ∀ v, Table.get?
          (s.vertexOrder ++ [("__v" ++ toString r, .ofInt s.vertexOrder.length)]) v =
            if "__v" ++ toString r = v then some (.ofInt s.vertexOrder.length)
            else Table.get? s.vertexOrder v) := by
  constructor
  · intro hshort
    by_contra hnone
    have hall : ∀ j, z ≤ j → j < z + (s.vertexOrder.length + 1 : Nat) →
        freshName j ∈ Table.keys s.vertexOrder := by
      intro j hj hlt
      by_contra hnew
      exact hnone ⟨j, hj, by omega, hnew⟩
    have hlen := length_of_declared hall
    omega
  · rintro ⟨id, hle, hlt, hfree⟩
    rcases fresh_cases hlow (by omega) hid with
      ⟨r, hzr, -, hrounds, hskipped, hnew, hfresh⟩ | ⟨-, hall⟩
    · have hleast : ∀ j, z ≤ j → freshName j ∉ Table.keys s.vertexOrder → r ≤ j := by
        intro j hj hjnew
        by_contra hlt
        exact hjnew (hskipped j hj (by omega))
      have hr : r < 2 ^ 53 := Int.lt_of_le_of_lt (hleast id hle hfree) hlt
      obtain ⟨n, rfl⟩ : ∃ n : Nat, r = z + n := ⟨(r - z).toNat, by omega⟩
      refine ⟨n, z + n, by omega, ?_, ⟨⟨hzr, hnew⟩, fun j hj => hleast j hj.1 hj.2⟩, ?_, ?_⟩
      · rw [hid]
        exact seeks_of_declared hlow (by omega) hskipped hnew
      · rw [hfresh, Number.add_one_int (by omega) hr, declare, List.foldl_cons, List.foldl_nil,
          register_of_not_mem hnew]
        rfl
      · intro v
        have hname : "__v" ++ toString (z + n) ∉ Table.keys s.vertexOrder := hnew
        rw [← Table.set_of_not_mem hname, Table.get?_set]
    · exact absurd (hall id hle (by omega)) hfree

/-- The numbers 1 and 2 are skipped. -/
theorem fresh_takes_least_free_skipping :
    let s : State :=
      ⟨[], .zero, [("__v2", .ofInt 0), ("a", .ofInt 1), ("__v1", .ofInt 2)], .ofInt 1⟩
    s.fresh.map Prod.fst = .ok "__v3" ∧
      IsLeast {id : Int | 1 ≤ id ∧ "__v" ++ toString id ∉ Table.keys s.vertexOrder} 3 ∧
      ∃ n ≤ 3, Seeks s.vertexOrder n (.ofInt 1) (.ofInt 3) := by
  intro s
  obtain ⟨hexists, hfound⟩ := fresh_takes_least_free s (z := 1) (by decide) rfl
  obtain ⟨n, r, hn, hseeks, hleast, hfresh, -⟩ := hfound (hexists (by decide))
  have hname : s.fresh.map Prod.fst = .ok "__v3" := by decide +kernel
  obtain rfl : r = 3 := by
    rw [hfresh] at hname
    exact freshName_inj (Except.ok.inj hname)
  exact ⟨hname, hleast, n, hn, hseeks⟩

def resting : State := ⟨[], .zero, [("__v9007199254740992", .ofInt 0)], .ofInt (2 ^ 53)⟩

theorem resting_declared (j : Int) (hj : 2 ^ 53 ≤ j) (hup : j ≤ 2 ^ 53) :
    freshName j ∈ Table.keys resting.vertexOrder := by
  obtain rfl : j = 2 ^ 53 := Int.le_antisymm hup hj
  decide

/-- The search never gets to the next number, which is free. -/
theorem resting_search_has_no_end :
    "__v" ++ toString (2 ^ 53 + 1 : Int) ∉ Table.keys resting.vertexOrder ∧
      (∀ n b, ¬ Seeks resting.vertexOrder n resting.freshVertexId b) ∧
      resting.fresh = .error .unending := by
  refine ⟨by decide, not_seeks_of_declared (by decide) (by decide) resting_declared, ?_⟩
  rcases fresh_cases (s := resting) (by decide) (Int.le_refl _) rfl with
    ⟨r, hle, hup, -, -, hnew, -⟩ | ⟨hend, -⟩
  · exact absurd (resting_declared r hle hup) hnew
  · exact hend

end SimplexScript.State
