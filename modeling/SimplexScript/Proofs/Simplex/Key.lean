import SimplexScript.Proofs.Listing
import SimplexScript.Complex.Basic

/-!
# Keys of simplices

Sixteen-bit units tell texts apart, and comparing them is a linear order, so
permuted simplices are sorted alike. Quoting can be read back from the left,
so a key determines the sorted simplex. Together: a key stands for a simplex
up to the order of its vertices.
-/

set_option autoImplicit false

namespace SimplexScript

namespace Text

theorem charUnits_append {c d : Char} {x y : List Nat}
    (h : charUnits c ++ x = charUnits d ++ y) : c = d ∧ x = y := by
  have hc : c.toNat < 0xD800 ∨ (0xDFFF < c.toNat ∧ c.toNat < 0x110000) := c.valid
  have hd : d.toNat < 0xD800 ∨ (0xDFFF < d.toNat ∧ d.toNat < 0x110000) := d.valid
  have hcd : c.toNat = d.toNat → c = d := fun h => Char.ext (UInt32.toNat_inj.1 h)
  unfold charUnits at h
  dsimp only at h
  split at h <;> split at h <;> simp only [List.cons_append, List.nil_append, List.cons.injEq] at h
  · exact ⟨hcd h.1, h.2⟩
  · omega
  · omega
  · exact ⟨hcd (by omega), h.2.2⟩

theorem charUnits_ne_nil (c : Char) : charUnits c ≠ [] := by
  unfold charUnits
  dsimp only
  split <;> simp

theorem units_injective {s t : String} (h : units s = units t) : s = t := by
  have hlist : ∀ cs ds : List Char, cs.flatMap charUnits = ds.flatMap charUnits → cs = ds := by
    intro cs
    induction cs with
    | nil =>
      intro ds h
      cases ds with
      | nil => rfl
      | cons d ds =>
        simp only [List.flatMap_nil, List.flatMap_cons] at h
        exact absurd (List.append_eq_nil_iff.1 h.symm).1 (charUnits_ne_nil d)
    | cons c cs ih =>
      intro ds h
      cases ds with
      | nil =>
        simp only [List.flatMap_nil, List.flatMap_cons] at h
        exact absurd (List.append_eq_nil_iff.1 h).1 (charUnits_ne_nil c)
      | cons d ds =>
        simp only [List.flatMap_cons] at h
        obtain ⟨rfl, hrest⟩ := charUnits_append h
        rw [ih ds hrest]
  exact String.toList_inj.1 (hlist _ _ h)

theorem unitsLe_total : ∀ a b : List Nat, unitsLe a b = false → unitsLe b a = true
  | [], _, h => by simp [unitsLe] at h
  | _ :: _, [], _ => rfl
  | m :: ms, n :: ns, h => by
    simp only [unitsLe, Bool.or_eq_false_iff, decide_eq_false_iff_not, Bool.and_eq_false_iff] at h
    by_cases hmn : m = n
    · have hrest := h.2.resolve_left (by simp [hmn])
      simp [unitsLe, hmn, unitsLe_total ms ns hrest]
    · have hlt : n < m := by omega
      simp [unitsLe, hlt]

theorem unitsLe_trans : ∀ a b c : List Nat,
    unitsLe a b = true → unitsLe b c = true → unitsLe a c = true
  | [], _, _, _, _ => rfl
  | _ :: _, [], _, h, _ => by simp [unitsLe] at h
  | _ :: _, _ :: _, [], _, h => by simp [unitsLe] at h
  | l :: ls, m :: ms, n :: ns, h, h' => by
    simp only [unitsLe, Bool.or_eq_true, decide_eq_true_eq, Bool.and_eq_true] at h h' ⊢
    rcases h with h | ⟨rfl, h⟩ <;> rcases h' with h' | ⟨rfl, h'⟩
    · exact Or.inl (by omega)
    · exact Or.inl h
    · exact Or.inl h'
    · exact Or.inr ⟨rfl, unitsLe_trans ls ms ns h h'⟩

theorem unitsLe_antisymm : ∀ a b : List Nat, unitsLe a b = true → unitsLe b a = true → a = b
  | [], [], _, _ => rfl
  | [], _ :: _, _, h => by simp [unitsLe] at h
  | _ :: _, [], h, _ => by simp [unitsLe] at h
  | m :: ms, n :: ns, h, h' => by
    simp only [unitsLe, Bool.or_eq_true, decide_eq_true_eq, Bool.and_eq_true] at h h'
    rcases h with h | ⟨rfl, h⟩ <;> rcases h' with h' | ⟨hmn, h'⟩
    · omega
    · omega
    · omega
    · rw [unitsLe_antisymm ms ns h h']

theorem perm_sorted (texts : List String) : (sorted texts).Perm texts := by
  have h := (perm_sortBy (fun a b : List Nat × String => unitsLe a.1 b.1)
    (texts.map fun s => (units s, s))).map Prod.snd
  simpa [sorted, List.map_map, Function.comp_def] using h

theorem eq_of_le_of_le {v w : String} (h : le v w = true) (h' : le w v = true) : v = w :=
  units_injective (unitsLe_antisymm _ _ h h')

theorem pairwise_sorted (texts : List String) :
    (sorted texts).Pairwise fun v w => le v w = true := by
  have hunits : ∀ e ∈ sortBy (fun a b : List Nat × String => unitsLe a.1 b.1)
      (texts.map fun s => (units s, s)), e.1 = units e.2 := by
    intro e he
    obtain ⟨v, -, rfl⟩ := List.mem_map.1 ((perm_sortBy _ _).mem_iff.1 he)
    rfl
  have hpair := pairwise_sortBy (fun a b : List Nat × String => unitsLe_total a.1 b.1)
    (fun a b c => unitsLe_trans a.1 b.1 c.1) (texts.map fun s => (units s, s))
  rw [sorted, List.pairwise_map]
  refine hpair.imp_of_mem ?_
  intro a b ha hb hab
  rw [le, ← hunits a ha, ← hunits b hb]
  exact hab

/-- Texts can be put in order in one way only. -/
theorem eq_sorted {texts u : List String} (hperm : u.Perm texts)
    (h : u.Pairwise fun v w => le v w = true) : u = sorted texts :=
  List.Perm.eq_of_pairwise (fun _ _ _ _ => eq_of_le_of_le) h (pairwise_sorted texts)
    (hperm.trans (perm_sorted texts).symm)

theorem sorted_eq_of_perm {s t : List String} (h : s.Perm t) : sorted s = sorted t :=
  eq_sorted ((perm_sorted s).trans h) (pairwise_sorted s)

theorem sorted_eq_sorted {s t : List String} : sorted s = sorted t ↔ s.Perm t := by
  constructor
  · intro h
    exact (perm_sorted s).symm.trans (h ▸ perm_sorted t)
  · exact sorted_eq_of_perm

theorem escapeControl_cancel : ∀ m < 32, ∀ n < 32,
    escapeControl m <+: escapeControl n → m = n := by
  decide +kernel

theorem escapeControl_second : ∀ n < 32, ∀ c : Char, c = '"' ∨ c = '\\' →
    ¬ ['\\', c] <+: escapeControl n ∧ ¬ escapeControl n <+: ['\\', c] := by
  have hquote : ∀ n < 32, ¬ ['\\', '"'] <+: escapeControl n ∧
      ¬ escapeControl n <+: ['\\', '"'] := by decide +kernel
  have hslash : ∀ n < 32, ¬ ['\\', '\\'] <+: escapeControl n ∧
      ¬ escapeControl n <+: ['\\', '\\'] := by decide +kernel
  rintro n hn c (rfl | rfl)
  · exact hquote n hn
  · exact hslash n hn

theorem escapeControl_head : ∀ n < 32, ∀ c : Char, c ≠ '\\' →
    ¬ [c] <+: escapeControl n ∧ ¬ escapeControl n <+: [c] := by
  have h : ∀ n < 32, (escapeControl n).head? = some '\\' := by decide +kernel
  intro n hn c hc
  have hn' := h n hn
  match he : escapeControl n with
  | [] => simp [he] at hn'
  | b :: bs =>
    simp only [he, List.head?_cons, Option.some.injEq] at hn'
    subst hn'
    simp [List.cons_prefix_cons, hc, Ne.symm hc]

/-- Escapes can be told apart from the left. -/
theorem escape_cancel {c d : Char} (h : escape c <+: escape d) : c = d := by
  have hnat : c.toNat = d.toNat → c = d := fun h => Char.ext (UInt32.toNat_inj.1 h)
  unfold escape at h
  split at h
  next hc =>
    split at h
    next hd => simpa [List.cons_prefix_cons] using h
    next hd =>
      split at h
      next hlt => exact absurd h (escapeControl_second _ hlt c hc).1
      next => simp [List.cons_prefix_cons] at h
  next hc =>
    split at h
    next hlt =>
      split at h
      next hd => exact absurd h (escapeControl_second _ hlt d hd).2
      next hd =>
        split at h
        next hlt' => exact hnat (escapeControl_cancel _ hlt _ hlt' h)
        next => exact absurd h (escapeControl_head _ hlt d (fun e => hd (Or.inr e))).2
    next =>
      split at h
      next hd =>
        simp only [List.cons_prefix_cons] at h
        exact absurd (Or.inr h.1) hc
      next hd =>
        split at h
        next hlt' => exact absurd h (escapeControl_head _ hlt' c (fun e => hc (Or.inr e))).1
        next => simpa [List.cons_prefix_cons] using h

theorem escape_append {c d : Char} {x y : List Char} (h : escape c ++ x = escape d ++ y) :
    c = d ∧ x = y := by
  have hcd : c = d := by
    have hc : escape c <+: escape d ++ y := h ▸ List.prefix_append _ _
    rcases List.prefix_or_prefix_of_prefix hc (List.prefix_append _ _) with hp | hp
    · exact escape_cancel hp
    · exact (escape_cancel hp).symm
  subst hcd
  exact ⟨rfl, List.append_cancel_left h⟩

theorem quote_ne_escape (c : Char) (x y : List Char) : '"' :: x ≠ escape c ++ y := by
  intro h
  unfold escape at h
  split at h
  next => simp at h
  next hc =>
    split at h
    next hlt =>
      have hp : ['"'] <+: escapeControl c.toNat ++ y := h ▸ ⟨x, rfl⟩
      rcases List.prefix_or_prefix_of_prefix hp (List.prefix_append _ _) with hq | hq
      · exact (escapeControl_head _ hlt '"' (by decide)).1 hq
      · exact (escapeControl_head _ hlt '"' (by decide)).2 hq
    next =>
      simp only [List.cons_append, List.cons.injEq] at h
      exact hc (Or.inl h.1.symm)

theorem escapeOnto_injective : ∀ (cs ds : List Char) {x y : List Char},
    escapeOnto cs x = escapeOnto ds y → cs = ds ∧ x = y
  | [], [], _, _, h => ⟨rfl, (List.cons.inj h).2⟩
  | [], d :: ds, _, _, h => absurd h (quote_ne_escape d _ _)
  | c :: cs, [], _, _, h => absurd h.symm (quote_ne_escape c _ _)
  | c :: cs, d :: ds, _, _, h => by
    obtain ⟨rfl, hrest⟩ := escape_append h
    obtain ⟨rfl, hxy⟩ := escapeOnto_injective cs ds hrest
    exact ⟨rfl, hxy⟩

theorem quotedOnto_injective {s t : String} {x y : List Char}
    (h : quotedOnto s x = quotedOnto t y) : s = t ∧ x = y := by
  obtain ⟨hst, hxy⟩ := escapeOnto_injective _ _ (List.cons.inj h).2
  exact ⟨String.toList_inj.1 hst, hxy⟩

theorem elements_injective : ∀ s t : List String, elements s = elements t → s = t
  | [], [], _ => rfl
  | [], _ :: _, h => by simp [elements] at h
  | _ :: _, [], h => by simp [elements] at h
  | v :: s, w :: t, h => by
    obtain ⟨rfl, hrest⟩ := quotedOnto_injective (List.cons.inj h).2
    rw [elements_injective s t hrest]

theorem quotedList_injective {s t : List String} (h : quotedList s = quotedList t) : s = t := by
  have hchars := String.ofList_injective h
  match s, t, hchars with
  | [], [], _ => rfl
  | [], _ :: _, h => simp [listChars, quotedOnto] at h
  | _ :: _, [], h => simp [listChars, quotedOnto] at h
  | v :: s, w :: t, h =>
    obtain ⟨rfl, hrest⟩ := quotedOnto_injective (List.cons.inj h).2
    rw [elements_injective s t hrest]

end Text

theorem Simplex.key_eq_key {s t : Simplex} : Simplex.key s = Simplex.key t ↔ s.Perm t := by
  rw [← Text.sorted_eq_sorted]
  constructor
  · exact Text.quotedList_injective
  · intro h
    rw [Simplex.key, Simplex.key, h]

end SimplexScript
