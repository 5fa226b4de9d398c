import Mathlib.Data.List.Induction
import Mathlib.Data.List.Nodup
import Mathlib.Data.List.Perm.Subperm
import SimplexScript.Listing

/-!
# Listings in order and without repetition

Sorting puts lists in the order it is given, so lists with the same members
are sorted alike. Keeping the first element of each key loses no key and keeps
none twice.
-/

set_option autoImplicit false

namespace SimplexScript

variable {α : Type}

theorem mem_insertBy {le : α → α → Bool} {x y : α} {xs : List α} :
    y ∈ insertBy le x xs ↔ y = x ∨ y ∈ xs := by
  rw [(perm_insertBy le x xs).mem_iff, List.mem_cons]

theorem pairwise_insertBy {le : α → α → Bool} (total : ∀ a b, le a b = false → le b a = true)
    (trans : ∀ a b c, le a b = true → le b c = true → le a c = true) (x : α) {xs : List α}
    (h : xs.Pairwise fun a b => le a b = true) :
    (insertBy le x xs).Pairwise fun a b => le a b = true := by
  induction xs with
  | nil => simp [insertBy]
  | cons y ys ih =>
    obtain ⟨hy, hys⟩ := List.pairwise_cons.1 h
    cases hxy : le x y with
    | true =>
      simp only [insertBy, hxy, if_true]
      refine List.pairwise_cons.2 ⟨?_, h⟩
      intro z hz
      rcases List.mem_cons.1 hz with rfl | hz
      · exact hxy
      · exact trans x y z hxy (hy z hz)
    | false =>
      simp only [insertBy, hxy, Bool.false_eq_true, if_false]
      refine List.pairwise_cons.2 ⟨?_, ih hys⟩
      intro z hz
      rcases mem_insertBy.1 hz with rfl | hz
      · exact total z y hxy
      · exact hy z hz

theorem pairwise_sortBy {le : α → α → Bool} (total : ∀ a b, le a b = false → le b a = true)
    (trans : ∀ a b c, le a b = true → le b c = true → le a c = true) (xs : List α) :
    (sortBy le xs).Pairwise fun a b => le a b = true := by
  induction xs with
  | nil => exact List.Pairwise.nil
  | cons x xs ih => exact pairwise_insertBy total trans x ih

theorem insertBy_of_le {le : α → α → Bool} {x : α} {xs : List α} (h : ∀ y ∈ xs, le x y = true) :
    insertBy le x xs = x :: xs := by
  cases xs with
  | nil => rfl
  | cons y ys => rw [insertBy, if_pos (h y (by simp))]

theorem length_distinct_eq [DecidableEq α] {xs : List α} :
    (distinct xs).length = xs.length ↔ xs.Nodup := by
  constructor
  · intro h
    have hsub : distinct xs ⊆ xs := fun x hx => (mem_distinct x xs).1 hx
    have hperm := (List.subperm_of_subset (nodup_distinct xs) hsub).perm_of_length_le (by omega)
    exact hperm.nodup_iff.1 (nodup_distinct xs)
  · intro h
    rw [distinct_eq_self h]

theorem eq_of_length_distinct_le_one [DecidableEq α] {xs : List α}
    (h : (distinct xs).length ≤ 1) : ∀ x ∈ xs, ∀ y ∈ xs, x = y := by
  intro x hx y hy
  rw [← mem_distinct] at hx hy
  obtain ⟨z, hz⟩ : ∃ z, distinct xs = [z] := by
    have hpos := List.length_pos_of_mem hx
    exact List.length_eq_one_iff.1 (by omega)
  rw [hz, List.mem_singleton] at hx hy
  rw [hx, hy]

theorem distinct_concat [DecidableEq α] (xs : List α) (y : α) :
    distinct (xs ++ [y]) = if y ∈ distinct xs then distinct xs else distinct xs ++ [y] := by
  induction xs with
  | nil => simp [distinct]
  | cons x xs ih =>
    rw [List.cons_append, distinct, distinct, ih]
    by_cases hx : y = x
    · subst hx
      by_cases hy : y ∈ distinct xs <;> simp [hy]
    · by_cases hy : y ∈ distinct xs
      · simp [hy]
      · simp [hy, hx]

theorem filter_distinct [DecidableEq α] (keep : α → Bool) (xs : List α) :
    (distinct xs).filter keep = distinct (xs.filter keep) := by
  induction xs with
  | nil => rfl
  | cons x xs ih =>
    have hcomm : ((distinct xs).filter fun y => !decide (y = x)).filter keep =
        (distinct (xs.filter keep)).filter fun y => !decide (y = x) := by
      rw [← ih, List.filter_filter, List.filter_filter]
      exact List.filter_congr fun y _ => Bool.and_comm _ _
    by_cases hx : keep x = true
    · rw [distinct, List.filter_cons_of_pos hx, List.filter_cons_of_pos hx, hcomm, distinct]
    · rw [distinct, List.filter_cons_of_neg hx, List.filter_cons_of_neg hx, hcomm,
        List.filter_eq_self]
      intro y hy
      have hne : y ≠ x := by
        rintro rfl
        exact hx (List.mem_filter.1 ((mem_distinct y _).1 hy)).2
      simpa using hne

theorem perm_flatMap_filter {β : Type} [DecidableEq β] (f : α → β) {rs : List β} (hrs : rs.Nodup)
    {xs : List α} (h : ∀ x ∈ xs, f x ∈ rs) :
    (rs.flatMap fun r => xs.filter fun x => decide (f x = r)).Perm xs := by
  induction rs generalizing xs with
  | nil =>
    have hnil : xs = [] := List.eq_nil_iff_forall_not_mem.2 fun x hx => by simpa using h x hx
    simp [hnil]
  | cons r rs ih =>
    obtain ⟨hr, hrs⟩ := List.nodup_cons.1 hrs
    have hrest : (rs.flatMap fun s => xs.filter fun x => decide (f x = s)) =
        rs.flatMap fun s => (xs.filter fun x => !decide (f x = r)).filter
          fun x => decide (f x = s) := by
      apply List.flatMap_congr
      intro s hs
      rw [List.filter_filter]
      apply List.filter_congr
      intro x _
      by_cases hx : f x = s
      · have hne : s ≠ r := fun e => hr (e ▸ hs)
        simp [hx, hne]
      · simp [hx]
    have hother : ∀ x ∈ xs.filter fun x => !decide (f x = r), f x ∈ rs := by
      intro x hx
      obtain ⟨hmem, hne⟩ := List.mem_filter.1 hx
      exact (List.mem_cons.1 (h x hmem)).resolve_left (by simpa using hne)
    rw [List.flatMap_cons, hrest]
    exact ((ih hrs hother).append_left _).trans (List.filter_append_perm _ xs)

section DistinctBy

variable {key : α → String}

/-- The keys met are the keys of the elements kept, no two of them equal. -/
structure Kept (key : α → String) (state : Std.TreeSet String × List α) : Prop where
  contains_iff : ∀ k, state.1.contains k = true ↔ ∃ x ∈ state.2, key x = k
  pairwise : state.2.Pairwise fun x y => key x ≠ key y

theorem keepNew_kept {state : Std.TreeSet String × List α} (h : Kept key state) (x : α) :
    Kept key (keepNew key state x) := by
  cases hx : state.1.contains (key x) with
  | true => simpa [keepNew, hx] using h
  | false =>
    have hnew : ¬ ∃ y ∈ state.2, key y = key x := by
      rw [← h.contains_iff, hx]
      decide
    simp only [keepNew, hx, Bool.false_eq_true, if_false]
    constructor
    · intro k
      rw [Std.TreeSet.contains_insert, Bool.or_eq_true, h.contains_iff]
      simp only [beq_iff_eq, Std.LawfulEqOrd.compare_eq_iff_eq, List.mem_cons,
        exists_eq_or_imp]
    · refine List.pairwise_cons.2 ⟨?_, h.pairwise⟩
      intro y hy he
      exact hnew ⟨y, hy, he.symm⟩

theorem mem_keepNew {state : Std.TreeSet String × List α} {x y : α}
    (h : y ∈ (keepNew key state x).2) : y = x ∨ y ∈ state.2 := by
  unfold keepNew at h
  dsimp only at h
  split at h
  · exact Or.inr h
  · exact List.mem_cons.1 h

theorem foldl_keepNew (xs : List α) {state : Std.TreeSet String × List α} (h : Kept key state) :
    Kept key (xs.foldl (keepNew key) state) ∧
      (∀ y ∈ (xs.foldl (keepNew key) state).2, y ∈ xs ∨ y ∈ state.2) ∧
      ∀ y, y ∈ xs ∨ y ∈ state.2 → ∃ z ∈ (xs.foldl (keepNew key) state).2, key z = key y := by
  induction xs generalizing state with
  | nil =>
    refine ⟨h, fun y hy => Or.inr hy, ?_⟩
    rintro y (hy | hy)
    · cases hy
    · exact ⟨y, hy, rfl⟩
  | cons x xs ih =>
    have hx := keepNew_kept h x
    obtain ⟨hkept, hsub, hcover⟩ := ih hx
    refine ⟨hkept, ?_, ?_⟩
    · intro y hy
      rcases hsub y hy with hy | hy
      · exact Or.inl (List.mem_cons_of_mem _ hy)
      · rcases mem_keepNew hy with rfl | hy
        · exact Or.inl (by simp)
        · exact Or.inr hy
    · have hstep : ∀ y, y = x ∨ y ∈ state.2 →
          ∃ z ∈ (keepNew key state x).2, key z = key y := by
        intro y hy
        rw [← hx.contains_iff]
        cases hc : state.1.contains (key x) with
        | true =>
          simp only [keepNew, hc, if_true]
          rcases hy with rfl | hy
          · exact hc
          · exact (h.contains_iff _).2 ⟨y, hy, rfl⟩
        | false =>
          simp only [keepNew, hc, Bool.false_eq_true, if_false, Std.TreeSet.contains_insert,
            Bool.or_eq_true, beq_iff_eq, Std.LawfulEqOrd.compare_eq_iff_eq]
          rcases hy with rfl | hy
          · exact Or.inl rfl
          · exact Or.inr ((h.contains_iff _).2 ⟨y, hy, rfl⟩)
      have hlast : ∀ y, y = x ∨ y ∈ state.2 →
          ∃ z ∈ (xs.foldl (keepNew key) (keepNew key state x)).2, key z = key y := by
        intro y hy
        obtain ⟨z, hz, he⟩ := hstep y hy
        obtain ⟨w, hw, he'⟩ := hcover z (Or.inr hz)
        exact ⟨w, hw, he'.trans he⟩
      rintro y (hy | hy)
      · rcases List.mem_cons.1 hy with rfl | hy
        · exact hlast y (Or.inl rfl)
        · exact hcover y (Or.inl hy)
      · exact hlast y (Or.inr hy)

theorem kept_empty (key : α → String) : Kept key (Std.TreeSet.empty, []) := by
  constructor
  · simp
  · exact List.Pairwise.nil

theorem mem_of_mem_distinctBy {xs : List α} {x : α} (h : x ∈ distinctBy key xs) : x ∈ xs := by
  rcases (foldl_keepNew xs (kept_empty key)).2.1 x (List.mem_reverse.1 h) with h | h
  · exact h
  · cases h

theorem exists_mem_distinctBy {xs : List α} {x : α} (h : x ∈ xs) :
    ∃ y ∈ distinctBy key xs, key y = key x := by
  obtain ⟨y, hy, he⟩ := (foldl_keepNew xs (kept_empty key)).2.2 x (Or.inl h)
  exact ⟨y, List.mem_reverse.2 hy, he⟩

theorem pairwise_distinctBy (xs : List α) :
    (distinctBy key xs).Pairwise fun x y => key x ≠ key y := by
  have h := (foldl_keepNew xs (kept_empty key)).1.pairwise
  rw [distinctBy, List.pairwise_reverse]
  exact h.imp Ne.symm

theorem foldl_keepNew_of_met {ys : List α} {state : Std.TreeSet String × List α}
    (h : ∀ y ∈ ys, state.1.contains (key y) = true) : ys.foldl (keepNew key) state = state := by
  induction ys with
  | nil => rfl
  | cons y ys ih =>
    have hy : keepNew key state y = state := by simp [keepNew, h y (by simp)]
    rw [List.foldl_cons, hy]
    exact ih fun z hz => h z (by simp [hz])

theorem foldl_keepNew_of_new {xs : List α} {state : Std.TreeSet String × List α}
    (h : Kept key state) (hxs : xs.Pairwise fun x y => key x ≠ key y)
    (hnew : ∀ x ∈ xs, ∀ y ∈ state.2, key y ≠ key x) :
    (xs.foldl (keepNew key) state).2 = xs.reverse ++ state.2 := by
  induction xs generalizing state with
  | nil => rfl
  | cons x xs ih =>
    obtain ⟨hx, hxs⟩ := List.pairwise_cons.1 hxs
    have hc : state.1.contains (key x) = false := by
      rw [← Bool.not_eq_true, h.contains_iff]
      rintro ⟨y, hy, he⟩
      exact hnew x (by simp) y hy he
    have hstep : keepNew key state x = (state.1.insert (key x), x :: state.2) := by
      simp [keepNew, hc]
    rw [List.foldl_cons, ih (keepNew_kept h x) hxs]
    · simp [hstep]
    · intro z hz y hy
      rw [hstep] at hy
      rcases List.mem_cons.1 hy with rfl | hy
      · exact hx z hz
      · exact hnew z (by simp [hz]) y hy

theorem distinctBy_concat (xs : List α) (x : α) : distinctBy key (xs ++ [x]) =
    if ∃ y ∈ distinctBy key xs, key y = key x then distinctBy key xs
    else distinctBy key xs ++ [x] := by
  have hmet := (foldl_keepNew xs (kept_empty key)).1.contains_iff (key x)
  simp only [distinctBy, List.foldl_append, List.foldl_cons, List.foldl_nil, List.mem_reverse,
    ← hmet]
  generalize xs.foldl (keepNew key) (Std.TreeSet.empty, []) = state
  cases hc : state.1.contains (key x) <;> simp [keepNew, hc]

theorem map_distinctBy {β : Type} [DecidableEq β] {g : α → β}
    (h : ∀ x y, key x = key y ↔ g x = g y) (xs : List α) :
    (distinctBy key xs).map g = distinct (xs.map g) := by
  induction xs using List.reverseRecOn with
  | nil => rfl
  | append_singleton xs x ih =>
    have hmet : (∃ y ∈ distinctBy key xs, key y = key x) ↔ g x ∈ distinct (xs.map g) := by
      rw [← ih, List.mem_map]
      exact exists_congr fun y => and_congr_right fun _ => h y x
    rw [distinctBy_concat, List.map_append, List.map_singleton, distinct_concat, ← ih]
    rw [← ih] at hmet
    by_cases hx : ∃ y ∈ distinctBy key xs, key y = key x
    · rw [if_pos hx, if_pos (hmet.1 hx)]
    · rw [if_neg hx, if_neg (mt hmet.2 hx), List.map_append, List.map_singleton]

theorem distinctBy_append {xs ys : List α} (hxs : xs.Pairwise fun x y => key x ≠ key y)
    (hys : ∀ y ∈ ys, ∃ x ∈ xs, key x = key y) : distinctBy key (xs ++ ys) = xs := by
  have hfold := foldl_keepNew_of_new (kept_empty key) hxs (by simp)
  have hkept := (foldl_keepNew xs (kept_empty key)).1
  have hmet : ∀ y ∈ ys,
      (xs.foldl (keepNew key) (Std.TreeSet.empty, [])).1.contains (key y) = true := by
    intro y hy
    obtain ⟨x, hx, he⟩ := hys y hy
    rw [hkept.contains_iff, hfold]
    exact ⟨x, by simpa using hx, he⟩
  rw [distinctBy, List.foldl_append, foldl_keepNew_of_met hmet, hfold]
  simp

end DistinctBy

end SimplexScript
