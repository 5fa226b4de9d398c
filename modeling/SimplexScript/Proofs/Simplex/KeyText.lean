import SimplexScript.Proofs.Json.Texts
import SimplexScript.Proofs.Simplex.Key

/-!
# Keys as JSON texts

The key of a simplex is the JSON text of its vertices in the order of their
sixteen-bit units. There is one such order for each collection of vertices, and
the text is read back as the array it was written from, so a key stands for
the vertices with their multiplicities and for nothing else.
-/

set_option autoImplicit false

namespace SimplexScript

namespace Text

/-- The same text, or before it where their sixteen-bit units first differ; a proper beginning
comes before what it begins. -/
def Precedes (v w : String) : Prop := v = w ∨ List.Lex (· < ·) (units v) (units w)

theorem unitsLe_iff : ∀ a b : List Nat, unitsLe a b = true ↔ a = b ∨ List.Lex (· < ·) a b
  | [], [] => by simp [unitsLe]
  | [], n :: ns => by simp [unitsLe]
  | m :: ms, [] => by simp [unitsLe]
  | m :: ms, n :: ns => by
    simp only [unitsLe, Bool.or_eq_true, Bool.and_eq_true, decide_eq_true_eq, unitsLe_iff ms ns,
      List.cons.injEq, List.cons_lex_cons_iff]
    tauto

theorem le_iff_precedes (v w : String) : le v w = true ↔ Precedes v w := by
  rw [le, unitsLe_iff, Precedes]
  constructor
  · exact Or.imp_left units_injective
  · exact Or.imp_left (congrArg units)

theorem pairwise_precedes {texts : List String} :
    texts.Pairwise Precedes ↔ texts.Pairwise fun v w => le v w = true := by
  simp only [le_iff_precedes]

theorem escapeOnto_append (cs rest : List Char) :
    escapeOnto cs rest = escapeOnto cs [] ++ rest := by
  induction cs with
  | nil => rfl
  | cons c cs ih => rw [escapeOnto, escapeOnto, ih, List.append_assoc]

theorem ofList_quotedOnto (s : String) (rest : List Char) :
    String.ofList (quotedOnto s rest) = quoted s ++ String.ofList rest := by
  rw [quoted, quotedOnto, quotedOnto, escapeOnto_append, ← List.cons_append, String.ofList_append]

end Text

theorem Json.writeItems_texts (out : String) (ss : List String) :
    Json.writeItems out (ss.map .text) ++ "]" = out ++ String.ofList (Text.elements ss) := by
  induction ss generalizing out with
  | nil => rfl
  | cons s ss ih =>
    have hcomma : String.ofList (Text.elements (s :: ss)) =
        "," ++ (Text.quoted s ++ String.ofList (Text.elements ss)) := by
      rw [Text.elements, String.ofList_cons, Text.ofList_quotedOnto]
      rfl
    rw [List.map_cons, Json.writeItems, ih, Json.write, hcomma]
    simp only [String.append_assoc]

theorem Json.render_texts (ss : List String) : (Json.texts ss).render = Text.quotedList ss := by
  cases ss with
  | nil => rfl
  | cons s ss =>
    have hopen : Text.quotedList (s :: ss) =
        "[" ++ (Text.quoted s ++ String.ofList (Text.elements ss)) := by
      rw [Text.quotedList, Text.listChars, String.ofList_cons, Text.ofList_quotedOnto]
      rfl
    rw [Json.texts, List.map_cons, Json.render, Json.write, Json.writeItems_texts, Json.write,
      hopen, String.append_assoc, String.empty_append]

/-- Two simplices have one key exactly if one is a permutation of the other. The key is the JSON
text of the vertices in the order of their sixteen-bit units, the one arrangement of them in that
order, and is read as that array. -/
theorem Simplex.key_identifies_permutations (s t : Simplex) :
    (Simplex.key s = Simplex.key t ↔ t.Perm s) ∧
    ∃ u : List String, u.Perm s ∧ u.Pairwise Text.Precedes ∧
      (∀ w : List String, w.Perm s → w.Pairwise Text.Precedes → w = u) ∧
      Simplex.key s = (Json.texts u).render ∧ Json.parse (Simplex.key s) = .ok (Json.texts u) := by
  refine ⟨?_, Text.sorted s, Text.perm_sorted s,
    Text.pairwise_precedes.2 (Text.pairwise_sorted s),
    fun w hw hsorted => Text.eq_sorted hw (Text.pairwise_precedes.1 hsorted),
    (Json.render_texts _).symm, Json.parse_quotedList _⟩
  rw [Simplex.key_eq_key]
  exact List.perm_comm

/-- A character beyond the first plane comes before the last of that plane, and names that look like
punctuation stay apart. -/
example : Simplex.key ["\uffff", "😀", "\",\"", "\t\\"] =
    "[\"\\t\\\\\",\"\\\",\\\"\",\"😀\",\"\uffff\"]" := by
  decide +kernel

end SimplexScript
