import SimplexScript.Document.Encode
import SimplexScript.Proofs.Document.Grammar
import SimplexScript.Language.Exec
import SimplexScript.Proofs.Number.Exact

/-!
# Checks of the parts of a form

Verdicts are accepted together, lists item by item. The checks of versions,
names, integers and pairs accept what the grammar says and no more, and what
they return is what was written.
-/

set_option autoImplicit false

namespace SimplexScript.Document

namespace Verdict

variable {α β : Type}

def Ensures (v : Verdict α) (P : α → Prop) : Prop := ∀ a, v = .accepted a → P a

theorem ensures_accepted {a : α} {P : α → Prop} (h : P a) : (accepted a).Ensures P := by
  intro b hb
  cases hb
  exact h

theorem ensures_rejected (is : List Issue) (P : α → Prop) : (rejected is).Ensures P := by
  intro a ha
  cases ha

theorem Ensures.map {v : Verdict α} {P : α → Prop} {Q : β → Prop} {f : α → β} (hv : v.Ensures P)
    (h : ∀ a, P a → Q (f a)) : (v.map f).Ensures Q := by
  cases v with
  | accepted a => exact ensures_accepted (h a (hv a rfl))
  | rejected is => exact ensures_rejected is Q

theorem Ensures.both {v : Verdict α} {w : Verdict β} {P : α → Prop} {Q : β → Prop}
    (hv : v.Ensures P) (hw : w.Ensures Q) : (v.both w).Ensures fun e => P e.1 ∧ Q e.2 := by
  cases v with
  | accepted a =>
    cases w with
    | accepted b => exact ensures_accepted ⟨hv a rfl, hw b rfl⟩
    | rejected js => exact ensures_rejected js _
  | rejected is =>
    cases w with
    | accepted b => exact ensures_rejected is _
    | rejected js => exact ensures_rejected (is ++ js) _

theorem Ensures.under {v : Verdict α} {P : α → Prop} (hv : v.Ensures P) (name : String) :
    (v.under name).Ensures P := by
  cases v with
  | accepted a => exact hv
  | rejected is => exact ensures_rejected _ P

theorem Ensures.ofChoice {v : Verdict α} {P : α → Prop} (hv : v.Ensures P) :
    v.ofChoice.Ensures P := by
  cases v with
  | accepted a => exact hv
  | rejected is =>
    rw [Verdict.ofChoice]
    split
    · exact ensures_rejected is P
    · exact ensures_rejected _ P

end Verdict

open Verdict

section Verdicts

variable {α β : Type}

theorem isAccepted_iff {v : Verdict α} : v.isAccepted = true ↔ ∃ a, v = .accepted a := by
  cases v <;> simp [isAccepted]

@[simp] theorem isAccepted_accepted (a : α) : (accepted a).isAccepted = true := rfl

@[simp] theorem isAccepted_map (f : α → β) (v : Verdict α) :
    (v.map f).isAccepted = v.isAccepted := by
  cases v <;> rfl

@[simp] theorem isAccepted_both (v : Verdict α) (w : Verdict β) :
    (v.both w).isAccepted = (v.isAccepted && w.isAccepted) := by
  cases v <;> cases w <;> rfl

@[simp] theorem isAccepted_under (name : String) (v : Verdict α) :
    (v.under name).isAccepted = v.isAccepted := by
  cases v <;> rfl

@[simp] theorem isAccepted_ofChoice (v : Verdict α) : v.ofChoice.isAccepted = v.isAccepted := by
  cases v with
  | accepted a => rfl
  | rejected is =>
    rw [ofChoice]
    split <;> rfl

theorem ensures_bounded {a : α} {messages : List String} {P : α → Prop}
    (h : messages = [] → P a) : (bounded a messages).Ensures P := by
  cases messages with
  | nil => exact ensures_accepted (h rfl)
  | cons m ms => exact ensures_rejected _ P

def required (check : Json → Verdict α) : Option Json → Verdict α
  | some v => check v
  | none => .invalid

end Verdicts

section Versions

theorem numberPoint?_eq_some {cs rest : List Char} : numberPoint? cs = some rest ↔
    ∃ digits, cs = digits ++ '.' :: rest ∧ digits ≠ [] ∧ ∀ c ∈ digits, c.isDigit = true := by
  constructor
  · intro h
    unfold numberPoint? at h
    split at h
    · cases h
    next hne =>
      split at h
      next tail htail =>
        cases h
        refine ⟨cs.takeWhile Char.isDigit, ?_, by simpa using hne, ?_⟩
        · rw [← htail, List.takeWhile_append_dropWhile]
        · exact List.all_eq_true.1 List.all_takeWhile
      next => cases h
  · rintro ⟨digits, rfl, hne, hdigits⟩
    have htake : (digits ++ '.' :: rest).takeWhile Char.isDigit = digits := by
      rw [List.takeWhile_append_of_pos hdigits, List.takeWhile_cons_of_neg (by decide),
        List.append_nil]
    have hdrop : (digits ++ '.' :: rest).dropWhile Char.isDigit = '.' :: rest := by
      rw [List.dropWhile_append_of_pos hdigits, List.dropWhile_cons_of_neg (by decide)]
    simp [numberPoint?, htake, hdrop, hne]

theorem isPatch_iff {cs : List Char} : isPatch cs = true ↔
    ∃ patch suffix, cs = patch ++ suffix ∧ (patch ≠ [] ∧ ∀ c ∈ patch, c.isDigit = true) ∧
      (suffix = [] ∨ ∃ tail, suffix = '-' :: tail ∧ tail ≠ [] ∧
        ∀ c ∈ tail, c.isAlphanum = true ∨ c = '.') := by
  have hchar : ∀ c, isSuffixChar c = true ↔ c.isAlphanum = true ∨ c = '.' := by
    intro c
    simp only [isSuffixChar, Char.isAlphanum, Bool.or_eq_true, decide_eq_true_eq]
    tauto
  constructor
  · intro h
    simp only [isPatch, Bool.and_eq_true, Bool.not_eq_true', List.isEmpty_eq_false_iff] at h
    refine ⟨cs.takeWhile Char.isDigit, cs.dropWhile Char.isDigit,
      List.takeWhile_append_dropWhile.symm, ⟨h.1, List.all_eq_true.1 List.all_takeWhile⟩, ?_⟩
    have hrest := h.2
    split at hrest
    next hnil => exact .inl hnil
    next tail htail =>
      simp only [Bool.and_eq_true, Bool.not_eq_true', List.isEmpty_eq_false_iff,
        List.all_eq_true, hchar] at hrest
      exact .inr ⟨tail, htail, hrest⟩
    next => cases hrest
  · rintro ⟨patch, suffix, rfl, ⟨hne, hdigits⟩, hsuffix⟩
    have hhead : suffix.takeWhile Char.isDigit = [] ∧ suffix.dropWhile Char.isDigit = suffix := by
      rcases hsuffix with rfl | ⟨tail, rfl, -⟩
      · exact ⟨rfl, rfl⟩
      · exact ⟨List.takeWhile_cons_of_neg (by decide), List.dropWhile_cons_of_neg (by decide)⟩
    simp only [isPatch, List.takeWhile_append_of_pos hdigits,
      List.dropWhile_append_of_pos hdigits, hhead, List.append_nil, Bool.and_eq_true,
      Bool.not_eq_true', List.isEmpty_eq_false_iff]
    refine ⟨hne, ?_⟩
    rcases hsuffix with rfl | ⟨tail, rfl, htail, hall⟩
    · rfl
    · simpa [htail, hchar] using hall

theorem isVersion_iff (s : String) : isVersion s = true ↔ IsVersion s := by
  have hsplit : isVersion s = true ↔
      ∃ rest, (numberPoint? s.toList).bind numberPoint? = some rest ∧ isPatch rest = true := by
    unfold isVersion
    cases (numberPoint? s.toList).bind numberPoint? <;> simp
  simp only [hsplit, Option.bind_eq_some_iff, numberPoint?_eq_some, isPatch_iff, IsVersion]
  constructor
  · rintro ⟨_, ⟨_, ⟨major, hs, hmajor⟩, minor, rfl, hminor⟩, patch, suffix, rfl, hpatch, hsuffix⟩
    refine ⟨major, minor, patch, suffix, hs, ?_, hsuffix⟩
    simpa using ⟨hmajor, hminor, hpatch⟩
  · rintro ⟨major, minor, patch, suffix, hs, hdigits, hsuffix⟩
    exact ⟨_, ⟨_, ⟨major, hs, hdigits major (by simp)⟩, minor, rfl, hdigits minor (by simp)⟩,
      patch, suffix, rfl, hdigits patch (by simp), hsuffix⟩

end Versions

section Lists

variable {α : Type} {check : Option Json → Verdict α}

/-- Whatever a check of the items ensures of each, together with how the items were written, a check
of a list ensures of all. -/
theorem checkList_ensures {P : Json → Prop} {Q : α → Prop} {kept : Json → Json} {write : α → Json}
    {v : Option Json} (h : ∀ items, v = some (.array items) → ∀ w ∈ items,
      (check (some w)).Ensures fun a => P w ∧ Q a ∧ write a = kept w) :
    (checkList check v).Ensures fun as => ∃ items, v = some (.array items) ∧
      (∀ w ∈ items, P w) ∧ (∀ a ∈ as, Q a) ∧ as.map write = items.map kept := by
  unfold checkList
  split
  next items =>
    have hitems : ∀ n, (checkItems check n items).Ensures fun as =>
        (∀ w ∈ items, P w) ∧ (∀ a ∈ as, Q a) ∧ as.map write = items.map kept := by
      have hall := h items rfl
      clear h
      induction items with
      | nil => exact fun n => ensures_accepted (by simp)
      | cons w rest ih =>
        intro n
        have hw := (hall w (by simp)).under (toString n)
        have hrest := ih (fun u hu => hall u (by simp [hu])) (n + 1)
        refine (hw.both hrest).map ?_
        rintro ⟨a, as⟩ ⟨⟨hp, hq, hwrite⟩, hps, hqs, hwrites⟩
        refine ⟨List.forall_mem_cons.2 ⟨hp, hps⟩, List.forall_mem_cons.2 ⟨hq, hqs⟩, ?_⟩
        rw [List.map_cons, List.map_cons, hwrite, hwrites]
    exact fun as has => ⟨items, rfl, hitems 0 as has⟩
  next => exact ensures_rejected _ _

theorem isAccepted_checkList {items : List Json}
    (h : ∀ w ∈ items, (check (some w)).isAccepted = true) :
    (checkList check (some (.array items))).isAccepted = true := by
  have hitems : ∀ n, (checkItems check n items).isAccepted = true := by
    induction items with
    | nil => exact fun n => rfl
    | cons w rest ih =>
      intro n
      have hrest := ih (fun u hu => h u (by simp [hu])) (n + 1)
      simp [checkItems, h w (by simp), hrest]
  exact hitems 0

theorem checkList_map {write : α → Json} {as : List α}
    (h : ∀ a ∈ as, check (some (write a)) = .accepted a) :
    checkList check (some (.array (as.map write))) = .accepted as := by
  have hitems : ∀ n, checkItems check n (as.map write) = .accepted as := by
    induction as with
    | nil => exact fun n => rfl
    | cons a as ih =>
      intro n
      have hrest := ih (fun b hb => h b (by simp [hb])) (n + 1)
      simp only [List.map_cons, checkItems, h a (by simp), hrest]
      rfl
  exact hitems 0

end Lists

section Parts

variable {fields : List (String × Json)}

theorem checkName_text {s : String} (h : s ≠ "") : checkName (some (.text s)) = .accepted s := by
  simp [checkName, h, bounded]

theorem checkName_reads (v : Option Json) :
    (checkName v).Ensures fun s => v = some (.text s) ∧ s ≠ "" := by
  unfold checkName
  split
  next s =>
    apply ensures_bounded
    intro h
    refine ⟨rfl, ?_⟩
    rintro rfl
    simp at h
  next => exact ensures_rejected _ _

theorem checkNameAt_reads (key : String) : (checkNameAt fields key).Ensures fun s =>
    Table.get? fields key = some (.text s) ∧ s ≠ "" :=
  (checkName_reads _).under key

theorem HasName.isAccepted {key : String} (h : HasName fields key) :
    (checkNameAt fields key).isAccepted = true := by
  obtain ⟨s, hs, hne⟩ := h
  simp [checkNameAt, hs, checkName_text hne]

theorem checkNames_reads (v : Option Json) : (checkList checkName v).Ensures fun names =>
    v = some (.texts names) ∧ ∀ s ∈ names, s ≠ "" := by
  have hname : ∀ w, (checkName (some w)).Ensures fun s => True ∧ s ≠ "" ∧ Json.text s = id w := by
    intro w s hs
    obtain ⟨hw, hne⟩ := checkName_reads (some w) s hs
    exact ⟨trivial, hne, (Option.some.inj hw).symm⟩
  intro names hnames
  obtain ⟨items, rfl, -, hne, hwrite⟩ := checkList_ensures (fun _ _ w _ => hname w) names hnames
  exact ⟨by simp [Json.texts, hwrite], hne⟩

theorem checkNames_texts {names : List String} (h : ∀ s ∈ names, s ≠ "") :
    checkList checkName (some (.texts names)) = .accepted names :=
  checkList_map fun s hs => checkName_text (h s hs)

theorem checkVertices_reads (v : Option Json) : (checkVertices v).Ensures fun names =>
    (v = some (.texts names) ∧ ∀ s ∈ names, s ≠ "") ∧ names ≠ [] := by
  unfold checkVertices
  cases h : checkList checkName v with
  | accepted names =>
    apply ensures_bounded
    intro hbound
    refine ⟨checkNames_reads v names h, ?_⟩
    rintro rfl
    simp at hbound
  | rejected is => exact ensures_rejected is _

theorem checkVertices_texts {names : List String} (h : ∀ s ∈ names, s ≠ "") (hne : names ≠ []) :
    checkVertices (some (.texts names)) = .accepted names := by
  simp [checkVertices, checkNames_texts h, hne, bounded]

theorem literal_bounds_iff {z : Int} :
    integerBounds z ++ literalBounds z = [] ↔ z.natAbs < 2 ^ 53 := by
  have hmax : Number.maxSafe = 2 ^ 53 - 1 := rfl
  by_cases h : z.natAbs < 2 ^ 53
  · have hbig : ¬ (Number.maxSafe : Int) < z := by omega
    have hsmall : ¬ z < -(Number.maxSafe : Int) := by omega
    have hsafe : z.natAbs ≤ Number.maxSafe := by omega
    exact iff_of_true (by simp [integerBounds, literalBounds, hbig, hsmall, hsafe]) h
  · have hunsafe : ¬ z.natAbs ≤ Number.maxSafe := by omega
    exact iff_of_false (by simp [literalBounds, hunsafe]) h

theorem checkLiteral_reads (v : Option Json) : (checkInteger literalBounds v).Ensures fun a =>
    ∃ z : Int, v = some (.ofInt z) ∧ a = .ofInt z ∧ z.natAbs < 2 ^ 53 := by
  unfold checkInteger
  split
  next q =>
    split
    next z hz =>
      apply ensures_bounded
      intro hbounds
      rw [Number.toInt?_eq_some hz]
      exact ⟨z, rfl, rfl, literal_bounds_iff.1 hbounds⟩
    next => exact ensures_rejected _ _
  next => exact ensures_rejected _ _

theorem checkInteger_ofInt (bounds : Int → List String) (z : Int) :
    checkInteger bounds (some (.ofInt z)) =
      .bounded (.ofInt z) (integerBounds z ++ bounds z) := by
  simp [checkInteger, Json.ofInt, Number.ofInt, Number.toInt?, Rat.ofInt]

theorem checkLiteral_ofInt {z : Int} (h : z.natAbs < 2 ^ 53) :
    checkInteger literalBounds (some (.ofInt z)) = .accepted (.ofInt z) := by
  rw [checkInteger_ofInt, literal_bounds_iff.2 h, bounded]

theorem checkPair_reads (v : Json) : (checkPair (some v)).Ensures fun e =>
    IsPair v ∧ (e.1 ≠ "" ∧ e.2 ≠ "") ∧ encodePair e = Role.pair.keep v := by
  unfold checkPair
  split
  next fields hv =>
    cases hv
    have hfrom := (checkName_reads (Table.get? fields "from")).under "from"
    have hto := (checkName_reads (Table.get? fields "to")).under "to"
    rintro ⟨a, b⟩ hab
    obtain ⟨⟨ha, hane⟩, hb, hbne⟩ := (hfrom.both hto) _ hab
    refine ⟨⟨⟨a, ha, hane⟩, b, hb, hbne⟩, ⟨hane, hbne⟩, ?_⟩
    rw [Role.keep_object (by simp)]
    simp [encodePair, Role.fields, Role.keepAt_of_get? ha, Role.keepAt_of_get? hb]
  next => exact ensures_rejected _ _

theorem checkPair_encodePair {e : String × String} (h : e.1 ≠ "" ∧ e.2 ≠ "") :
    checkPair (some (encodePair e)) = .accepted e := by
  simp [checkPair, encodePair, Table.get?, checkName_text h.1, checkName_text h.2, under, both]

theorem IsPair.isAccepted {v : Json} (h : IsPair v) : (checkPair (some v)).isAccepted = true := by
  obtain ⟨⟨s, hs, hsne⟩, t, ht, htne⟩ := h
  simp [checkPair, hs, ht, checkName_text hsne, checkName_text htne]

end Parts

end SimplexScript.Document
