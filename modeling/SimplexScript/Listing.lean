import Std.Data.TreeSet

/-!
# Lists without repetition and lists in order

`distinct` and `distinctBy` keep first appearances, so the order of a listing
is the order in which its members were first mentioned. `sortBy` is a stable
insertion sort.
-/

set_option autoImplicit false

namespace SimplexScript

def distinct {α : Type} [DecidableEq α] : List α → List α
  | [] => []
  | x :: xs => x :: (distinct xs).filter fun y => !decide (y = x)

@[simp] theorem mem_distinct {α : Type} [DecidableEq α] (a : α) (xs : List α) :
    a ∈ distinct xs ↔ a ∈ xs := by
  induction xs with
  | nil => simp [distinct]
  | cons x xs ih => by_cases h : a = x <;> simp [distinct, ih, h]

theorem nodup_distinct {α : Type} [DecidableEq α] (xs : List α) : (distinct xs).Nodup := by
  induction xs with
  | nil => simp [distinct]
  | cons x xs ih =>
    rw [distinct, List.nodup_cons]
    exact ⟨by simp, List.Pairwise.filter _ ih⟩

theorem distinct_eq_self {α : Type} [DecidableEq α] {xs : List α} (h : xs.Nodup) :
    distinct xs = xs := by
  induction xs with
  | nil => rfl
  | cons x xs ih =>
    obtain ⟨hx, hxs⟩ := List.nodup_cons.1 h
    rw [distinct, ih hxs, List.filter_eq_self.2]
    intro y hy
    have : y ≠ x := fun e => hx (e ▸ hy)
    simp [this]

/-- One step of `distinctBy`: the keys met so far and the elements kept, latest first. -/
def keepNew {α : Type} (key : α → String) (state : Std.TreeSet String × List α) (x : α) :
    Std.TreeSet String × List α :=
  let k := key x
  if state.1.contains k then state else (state.1.insert k, x :: state.2)

/-- The first element of each key, in order of appearance. -/
def distinctBy {α : Type} (key : α → String) (xs : List α) : List α :=
  (xs.foldl (keepNew key) (Std.TreeSet.empty, [])).2.reverse

def insertBy {α : Type} (le : α → α → Bool) (x : α) : List α → List α
  | [] => [x]
  | y :: ys => if le x y then x :: y :: ys else y :: insertBy le x ys

theorem perm_insertBy {α : Type} (le : α → α → Bool) (x : α) (xs : List α) :
    (insertBy le x xs).Perm (x :: xs) := by
  induction xs with
  | nil => exact .refl _
  | cons y ys ih =>
    by_cases h : le x y
    · simp [insertBy, h]
    · simpa [insertBy, h] using (ih.cons y).trans (.swap x y ys)

def sortBy {α : Type} (le : α → α → Bool) : List α → List α
  | [] => []
  | x :: xs => insertBy le x (sortBy le xs)

theorem perm_sortBy {α : Type} (le : α → α → Bool) (xs : List α) : (sortBy le xs).Perm xs := by
  induction xs with
  | nil => exact .refl _
  | cons x xs ih => exact (perm_insertBy le x _).trans (ih.cons x)

end SimplexScript
