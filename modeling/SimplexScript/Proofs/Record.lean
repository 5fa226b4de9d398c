import Mathlib.Data.List.Nodup
import SimplexScript.Proofs.Listing
import SimplexScript.Proofs.Table
import SimplexScript.Table

/-!
# Entries of records

A record lists the entries of its table in an order of its own. It loses none
of them but the one under the reserved key. A table that is in this order is
listed as it is.
-/

set_option autoImplicit false

namespace SimplexScript.Record

variable {α : Type}

def indexed (t : Table String α) : List (Nat × String × α) :=
  t.filterMap fun e => (arrayIndex? e.1).map fun i => (i, e)

def byIndex (t : Table String α) : List (Nat × String × α) :=
  sortBy (fun a b => decide (a.1 ≤ b.1)) (indexed t)

theorem listing_eq (t : Table String α) : listing t =
    (byIndex (t.filter fun e => !decide (e.1 = reservedKey))).map Prod.snd ++
      (t.filter fun e => !decide (e.1 = reservedKey)).filter fun e => (arrayIndex? e.1).isNone :=
  rfl

theorem mem_byIndex {t : Table String α} {i : Nat} {e : String × α} :
    (i, e) ∈ byIndex t ↔ e ∈ t ∧ arrayIndex? e.1 = some i := by
  rw [byIndex, (perm_sortBy _ _).mem_iff, indexed, List.mem_filterMap]
  constructor
  · rintro ⟨d, hd, hi⟩
    obtain ⟨j, hj, he⟩ := Option.map_eq_some_iff.1 hi
    cases he
    exact ⟨hd, hj⟩
  · rintro ⟨he, hi⟩
    exact ⟨e, he, by rw [hi, Option.map_some]⟩

theorem map_snd_indexed (t : Table String α) :
    (indexed t).map Prod.snd = t.filter fun e => (arrayIndex? e.1).isSome := by
  unfold indexed
  induction t with
  | nil => rfl
  | cons e t ih => cases h : arrayIndex? e.1 <;> simp [h, ih]

theorem perm_listing (t : Table String α) :
    (listing t).Perm (t.filter fun e => !decide (e.1 = reservedKey)) := by
  rw [listing_eq]
  generalize t.filter (fun e => !decide (e.1 = reservedKey)) = kept
  have hindexed : ((byIndex kept).map Prod.snd).Perm
      (kept.filter fun e => (arrayIndex? e.1).isSome) := by
    rw [← map_snd_indexed]
    exact (perm_sortBy _ _).map Prod.snd
  have hothers : (fun e : String × α => (arrayIndex? e.1).isNone) =
      fun e => !(arrayIndex? e.1).isSome := by
    funext e
    cases arrayIndex? e.1 <;> rfl
  rw [hothers]
  exact (hindexed.append_right _).trans (List.filter_append_perm _ kept)

theorem mem_listing {t : Table String α} {e : String × α} :
    e ∈ listing t ↔ e ∈ t ∧ e.1 ≠ reservedKey := by
  rw [(perm_listing t).mem_iff, List.mem_filter]
  simp

theorem nodup_keys_listing {t : Table String α} (h : (Table.keys t).Nodup) :
    (Table.keys (listing t)).Nodup := by
  have hkept : (Table.keys (t.filter fun e => !decide (e.1 = reservedKey))).Nodup :=
    h.sublist (List.filter_sublist.map Prod.fst)
  exact ((perm_listing t).map Prod.fst).nodup_iff.2 hkept

theorem filter_reserved {t : Table String α} (h : reservedKey ∉ Table.keys t) :
    t.filter (fun e => !decide (e.1 = reservedKey)) = t := by
  rw [List.filter_eq_self]
  intro e he
  have hne : e.1 ≠ reservedKey := fun heq => h (heq ▸ Table.mem_keys he)
  simpa using hne

section Order

/-- An index comes only after indices that are not larger. -/
def Before (j k : String) : Prop :=
  ∀ i, arrayIndex? k = some i → ∃ h ≤ i, arrayIndex? j = some h

theorem pairwise_byIndex (t : Table String α) : (byIndex t).Pairwise fun a b => a.1 ≤ b.1 := by
  have h : (byIndex t).Pairwise fun a b => decide (a.1 ≤ b.1) = true := by
    apply pairwise_sortBy
    · intro a b hab
      simp only [decide_eq_false_iff_not, decide_eq_true_eq] at hab ⊢
      omega
    · intro a b c hab hbc
      simp only [decide_eq_true_eq] at hab hbc ⊢
      omega
  exact h.imp of_decide_eq_true

theorem pairwise_listing (t : Table String α) : (Table.keys (listing t)).Pairwise Before := by
  rw [listing_eq]
  generalize t.filter (fun e => !decide (e.1 = reservedKey)) = kept
  have hothers : ∀ e ∈ kept.filter fun e => (arrayIndex? e.1).isNone, ∀ j, Before j e.1 := by
    intro e he j i hi
    have hnone := (List.mem_filter.1 he).2
    rw [hi] at hnone
    cases hnone
  rw [Table.keys, List.map_append, List.map_map, List.pairwise_append, List.pairwise_map,
    List.pairwise_map]
  refine ⟨(pairwise_byIndex kept).imp_of_mem ?_, ?_, ?_⟩
  · intro a b ha hb hle i hi
    have hb' : arrayIndex? b.2.1 = some b.1 := (mem_byIndex.1 hb).2
    rw [Function.comp_apply, hb'] at hi
    cases hi
    exact ⟨a.1, hle, (mem_byIndex.1 ha).2⟩
  · exact List.pairwise_of_forall_mem_list fun d _ e he => hothers e he d.1
  · intro j _ k hk
    obtain ⟨e, he, rfl⟩ := List.mem_map.1 hk
    exact hothers e he j

/-- A table whose keys are in the order of a record is listed as it is. -/
theorem listing_eq_self {t : Table String α} (h : (Table.keys t).Pairwise Before)
    (hkey : reservedKey ∉ Table.keys t) : listing t = t := by
  rw [listing_eq, filter_reserved hkey]
  clear hkey
  induction t with
  | nil => rfl
  | cons e t ih =>
    obtain ⟨hfirst, hrest⟩ := List.pairwise_cons.1 h
    have hbefore : ∀ d ∈ t, Before e.1 d.1 := fun d hd => hfirst d.1 (List.mem_map_of_mem hd)
    cases hi : arrayIndex? e.1 with
    | some i =>
      -- The first entry has the least index, so it is inserted at the front.
      have hcons : byIndex (e :: t) = (i, e) :: byIndex t := by
        rw [byIndex, indexed, List.filterMap_cons_some (by rw [hi, Option.map_some]), sortBy]
        apply insertBy_of_le
        intro a ha
        obtain ⟨hmem, hindex⟩ := mem_byIndex.1 ha
        obtain ⟨j, hj, hij⟩ := hbefore a.2 hmem a.1 hindex
        rw [hi] at hij
        cases hij
        exact decide_eq_true hj
      rw [hcons, List.filter_cons_of_neg (by simp [hi]), List.map_cons, List.cons_append, ih hrest]
    | none =>
      -- No key after one that is not an index is an index.
      have hnone : ∀ d ∈ e :: t, arrayIndex? d.1 = none := by
        intro d hd
        rcases List.mem_cons.1 hd with rfl | hd
        · exact hi
        · rw [Option.eq_none_iff_forall_ne_some]
          intro k hk
          obtain ⟨j, -, hj⟩ := hbefore d hd k hk
          rw [hi] at hj
          cases hj
      have hindexed : byIndex (e :: t) = [] := by
        rw [List.eq_nil_iff_forall_not_mem]
        rintro ⟨k, d⟩ hd
        obtain ⟨hmem, hk⟩ := mem_byIndex.1 hd
        rw [hnone d hmem] at hk
        cases hk
      rw [hindexed, List.map_nil, List.nil_append, List.filter_eq_self]
      intro d hd
      rw [hnone d hd, Option.isNone_none]

end Order

end SimplexScript.Record
