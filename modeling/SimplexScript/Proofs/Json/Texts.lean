import Mathlib.Tactic.IntervalCases
import SimplexScript.Json.Reader

/-!
# Lists of texts as JSON

Sixteen-bit units put together give back the characters they were taken from,
and the scanner undoes every escape. So a list of texts, written between
brackets, is read as the array of those texts and as nothing else.
-/

set_option autoImplicit false

namespace SimplexScript.Json

theorem unitChars_cons {m : Nat} (hm : ¬ (0xD800 ≤ m ∧ m < 0xE000)) (rest : List Nat) :
    unitChars (m :: rest) = Char.ofNat m :: unitChars rest := by
  cases rest with
  | nil => simp [unitChars, hm]
  | cons n rest =>
    have hpair : ¬ (0xD800 ≤ m ∧ m < 0xDC00 ∧ 0xDC00 ≤ n ∧ n < 0xE000) := by omega
    rw [unitChars, if_neg hpair, if_neg hm]

theorem unitChars_pair {m n : Nat} (hm : m < 0x400) (hn : n < 0x400) (rest : List Nat) :
    unitChars ((0xD800 + m) :: (0xDC00 + n) :: rest) =
      Char.ofNat (0x10000 + m * 0x400 + n) :: unitChars rest := by
  have hpair : 0xD800 ≤ 0xD800 + m ∧ 0xD800 + m < 0xDC00 ∧ 0xDC00 ≤ 0xDC00 + n ∧
      0xDC00 + n < 0xE000 := by omega
  rw [unitChars, if_pos hpair, Nat.add_sub_cancel_left, Nat.add_sub_cancel_left]

theorem unitChars_charUnits (c : Char) (rest : List Nat) :
    unitChars (Text.charUnits c ++ rest) = c :: unitChars rest := by
  have hc : c.toNat < 0xD800 ∨ (0xDFFF < c.toNat ∧ c.toNat < 0x110000) := c.valid
  unfold Text.charUnits
  dsimp only
  split
  next hlt =>
    rw [List.singleton_append, unitChars_cons (by omega), Char.ofNat_toNat]
  next hge =>
    have hsum : 0x10000 + (c.toNat - 0x10000) / 0x400 * 0x400 + (c.toNat - 0x10000) % 0x400 =
        c.toNat := by omega
    rw [List.cons_append, List.singleton_append, unitChars_pair (by omega) (by omega), hsum,
      Char.ofNat_toNat]

theorem ofUnits_units (s : String) : ofUnits (Text.units s) = s := by
  have hlist : ∀ cs : List Char, unitChars (cs.flatMap Text.charUnits) = cs := by
    intro cs
    induction cs with
    | nil => rfl
    | cons c cs ih => rw [List.flatMap_cons, unitChars_charUnits, ih]
  rw [ofUnits, Text.units, hlist, String.ofList_toList]

section Scan

theorem scan_found (pos : Nat) (mode : Mode) (found : List (Nat × Token)) (cs : List Char) :
    scan pos mode found cs = found.reverse ++ scan pos mode [] cs := by
  induction cs generalizing pos mode found with
  | nil => simp [scan]
  | cons c cs ih =>
    dsimp only [scan]
    rw [ih, ih _ _ (_ ++ [])]
    simp

theorem scan_cons (pos : Nat) (mode : Mode) (c : Char) (cs : List Char) :
    scan pos mode [] (c :: cs) = (scanStep pos c mode).1 ++
      scan (pos + (Text.charUnits c).length) (scanStep pos c mode).2 [] cs := by
  dsimp only [scan]
  rw [scan_found]
  simp

theorem scan_escape (c : Char) (pos start : Nat) (units : List Nat) (rest : List Char) :
    ∃ pos', scan pos (.text start units) [] (Text.escape c ++ rest) =
      scan pos' (.text start ((Text.charUnits c).reverse ++ units)) [] rest := by
  unfold Text.escape
  split
  next hc =>
    rcases hc with rfl | rfl
    · exact ⟨_, rfl⟩
    · exact ⟨_, rfl⟩
  next hc =>
    split
    next hlt =>
      have hunits : Text.charUnits c = [c.toNat] := by
        unfold Text.charUnits
        exact if_pos (by omega)
      rw [hunits]
      generalize c.toNat = n at hlt
      interval_cases n <;> exact ⟨_, rfl⟩
    next hge =>
      rw [not_or] at hc
      refine ⟨pos + (Text.charUnits c).length, ?_⟩
      simp [scan, scanStep, hc.1, hc.2, hge]

theorem scan_escapeOnto (cs : List Char) (pos start : Nat) (units : List Nat)
    (rest : List Char) :
    ∃ pos', scan pos (.text start units) [] (Text.escapeOnto cs rest) =
      (start, .text (ofUnits (units.reverse ++ cs.flatMap Text.charUnits))) ::
        scan pos' .idle [] rest := by
  induction cs generalizing pos units with
  | nil =>
    refine ⟨pos + 1, ?_⟩
    rw [List.flatMap_nil, List.append_nil]
    exact scan_cons pos (.text start units) '"' rest
  | cons c cs ih =>
    obtain ⟨next, hnext⟩ := scan_escape c pos start units (Text.escapeOnto cs rest)
    obtain ⟨pos', hpos⟩ := ih next ((Text.charUnits c).reverse ++ units)
    refine ⟨pos', ?_⟩
    rw [Text.escapeOnto, hnext, hpos]
    simp

/-- A quoted text is one token. -/
theorem scan_quotedOnto (s : String) (pos : Nat) (rest : List Char) :
    ∃ pos', scan pos .idle [] (Text.quotedOnto s rest) =
      (pos, .text s) :: scan pos' .idle [] rest := by
  obtain ⟨pos', hpos⟩ := scan_escapeOnto s.toList (pos + 1) pos [] rest
  refine ⟨pos', ?_⟩
  have hstart : scan pos .idle [] (Text.quotedOnto s rest) =
      scan (pos + 1) (.text pos []) [] (Text.escapeOnto s.toList rest) := rfl
  rw [hstart, hpos, List.reverse_nil, List.nil_append, ← Text.units, ofUnits_units]

end Scan

theorem readTokens_elements (size pos : Nat) (items : List Json) (ss : List String) :
    readTokens size ⟨.afterItem items, []⟩ (scan pos .idle [] (Text.elements ss)) =
      .ok (.array (items.reverse ++ ss.map .text)) := by
  induction ss generalizing pos items with
  | nil =>
    rw [List.map_nil, List.append_nil]
    rfl
  | cons s ss ih =>
    obtain ⟨pos', hpos⟩ := scan_quotedOnto s (pos + 1) (Text.elements ss)
    have hcomma : scan pos .idle [] (Text.elements (s :: ss)) =
        (pos, .mark ',') :: scan (pos + 1) .idle [] (Text.quotedOnto s (Text.elements ss)) :=
      scan_cons pos .idle ',' _
    have hread : ∀ ts, readTokens size ⟨.afterItem items, []⟩
        ((pos, .mark ',') :: (pos + 1, .text s) :: ts) =
          readTokens size ⟨.afterItem (.text s :: items), []⟩ ts := fun _ => rfl
    rw [hcomma, hpos, hread, ih]
    simp

/-- A list of texts is read back from its brackets. -/
theorem parse_quotedList (ss : List String) : parse (Text.quotedList ss) = .ok (texts ss) := by
  have hread : ∀ size, readTokens size ⟨.value, []⟩ (scan 0 .idle [] (Text.listChars ss)) =
      .ok (texts ss) := by
    intro size
    cases ss with
    | nil => rfl
    | cons s ss =>
      obtain ⟨pos', hpos⟩ := scan_quotedOnto s 1 (Text.elements ss)
      have hopen : scan 0 .idle [] (Text.listChars (s :: ss)) =
          (0, .mark '[') :: scan 1 .idle [] (Text.quotedOnto s (Text.elements ss)) :=
        scan_cons 0 .idle '[' _
      have hstep : ∀ ts, readTokens size ⟨.value, []⟩ ((0, .mark '[') :: (1, .text s) :: ts) =
          readTokens size ⟨.afterItem [.text s], []⟩ ts := fun _ => rfl
      rw [hopen, hpos, hstep, readTokens_elements]
      rfl
  rw [parse, tokens, Text.quotedList, String.toList_ofList, hread]

end SimplexScript.Json
