import SimplexScript.Table

/-!
# Entries of tables

Setting an entry adds at most that entry, so a condition on all values of a
table is kept by setting values that meet it.
-/

set_option autoImplicit false

namespace SimplexScript.Table

variable {κ α : Type} [DecidableEq κ]

theorem mem_of_get? {t : Table κ α} {k : κ} {a : α} (h : get? t k = some a) : (k, a) ∈ t := by
  induction t with
  | nil => simp [get?] at h
  | cons e t ih =>
    obtain ⟨i, b⟩ := e
    by_cases hi : i = k
    · simp only [get?, hi, if_true, Option.some.injEq] at h
      simp [hi, h]
    · simp only [get?, hi, if_false] at h
      exact List.mem_cons_of_mem _ (ih h)

omit [DecidableEq κ] in
theorem mem_keys {t : Table κ α} {k : κ} {a : α} (h : (k, a) ∈ t) : k ∈ keys t :=
  List.mem_map.2 ⟨(k, a), h, rfl⟩

theorem exists_get?_of_mem_keys {t : Table κ α} {k : κ} (h : k ∈ keys t) :
    ∃ a, get? t k = some a :=
  Option.isSome_iff_exists.1 ((contains_iff t k).2 h)

theorem get?_eq_some_iff {t : Table κ α} (h : (keys t).Nodup) {k : κ} {a : α} :
    get? t k = some a ↔ (k, a) ∈ t := by
  constructor
  · exact mem_of_get?
  · intro hmem
    induction t with
    | nil => cases hmem
    | cons e t ih =>
      obtain ⟨i, b⟩ := e
      obtain ⟨hi, ht⟩ := List.nodup_cons.1 h
      rcases List.mem_cons.1 hmem with he | hmem
      · cases he
        simp [get?]
      · have hne : i ≠ k := fun he => hi (he ▸ mem_keys hmem)
        simp only [get?, hne, if_false]
        exact ih ht hmem

theorem nodup_keys_set {t : Table κ α} (h : (keys t).Nodup) (k : κ) (a : α) :
    (keys (set t k a)).Nodup := by
  rw [keys_set]
  split
  · exact h
  next hk =>
    have hnew : k ∉ keys t := mt (contains_iff t k).2 hk
    rw [List.nodup_append]
    refine ⟨h, by simp, ?_⟩
    intro i hi j hj he
    obtain rfl := List.mem_singleton.1 hj
    exact hnew (he ▸ hi)

theorem set_of_not_mem {t : Table κ α} {k : κ} (h : k ∉ keys t) (a : α) :
    set t k a = t ++ [(k, a)] := by
  induction t with
  | nil => rfl
  | cons e t ih =>
    obtain ⟨i, b⟩ := e
    have hne : i ≠ k := fun he => h (he ▸ List.mem_cons_self)
    rw [set, if_neg hne, ih (mt (List.mem_cons_of_mem i) h), List.cons_append]

theorem get?_filter (p : κ → Bool) (t : Table κ α) (k : κ) :
    get? (t.filter fun e => p e.1) k = if p k then get? t k else none := by
  induction t with
  | nil => simp [get?]
  | cons e t ih =>
    obtain ⟨i, b⟩ := e
    by_cases hi : i = k
    · subst hi
      by_cases hp : p i = true <;> simp [get?, hp, ih]
    · by_cases hp : p i = true <;> simp [get?, hp, hi, ih]

theorem mem_set {t : Table κ α} {k : κ} {a : α} {e : κ × α} (h : e ∈ set t k a) :
    e = (k, a) ∨ e ∈ t := by
  induction t with
  | nil => simpa [set] using h
  | cons d t ih =>
    obtain ⟨i, b⟩ := d
    by_cases hi : i = k
    · simp only [set, hi, if_true, List.mem_cons] at h
      rcases h with rfl | h
      · exact Or.inl rfl
      · exact Or.inr (List.mem_cons_of_mem _ h)
    · simp only [set, hi, if_false, List.mem_cons] at h
      rcases h with rfl | h
      · exact Or.inr (by simp)
      · exact (ih h).imp_right (List.mem_cons_of_mem _)

theorem forall_set {P : α → Prop} {t : Table κ α} {k : κ} {a : α}
    (ht : ∀ e ∈ t, P e.2) (ha : P a) : ∀ e ∈ set t k a, P e.2 := by
  intro e he
  rcases mem_set he with rfl | h
  · exact ha
  · exact ht e h

theorem mem_setAll {entries t : Table κ α} {e : κ × α} (h : e ∈ setAll t entries) :
    e ∈ t ∨ e ∈ entries := by
  induction entries generalizing t with
  | nil => exact Or.inl h
  | cons d entries ih =>
    rcases ih h with hset | hrest
    · rcases mem_set hset with rfl | ht
      · exact Or.inr (by simp)
      · exact Or.inl ht
    · exact Or.inr (List.mem_cons_of_mem _ hrest)

theorem forall_setAll {P : α → Prop} (entries : Table κ α) {t : Table κ α}
    (ht : ∀ e ∈ t, P e.2) (ha : ∀ e ∈ entries, P e.2) : ∀ e ∈ setAll t entries, P e.2 := by
  intro e he
  rcases mem_setAll he with h | h
  · exact ht e h
  · exact ha e h

end SimplexScript.Table
