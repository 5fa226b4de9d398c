import SimplexScript.Proofs.Document.Forms

/-!
# Checked programs

A check of a document accepts exactly the programs of the grammar. What it
returns is the document without undeclared fields; it passes the check again
unchanged, and no fault of a form is met in executing it.
-/

set_option autoImplicit false

namespace SimplexScript.Document

open Verdict

def Program.Formed (p : Program) : Prop :=
  IsVersion p.version ∧ Command.FormedAll p.commands

theorem checkVersion_reads (v : Option Json) :
    (checkVersion v).Ensures fun s => v = some (.text s) ∧ IsVersion s := by
  unfold checkVersion
  split
  next s =>
    apply ensures_bounded
    intro h
    refine ⟨rfl, (isVersion_iff s).1 ?_⟩
    by_contra hno
    simp [hno] at h
  next => exact ensures_rejected _ _

theorem checkVersion_text {s : String} (h : IsVersion s) :
    checkVersion (some (.text s)) = .accepted s := by
  simp [checkVersion, (isVersion_iff s).2 h, bounded]

theorem description_reads (fields : List (String × Json)) :
    (optional checkText (Table.get? fields "description")).Ensures fun d =>
      (∀ v, Table.get? fields "description" = some v → ∃ s, v = .text s) ∧
      Role.keepAt "description" .data fields =
        (match d with
        | some s => [("description", .text s)]
        | none => []) := by
  cases hd : Table.get? fields "description" with
  | none => exact ensures_accepted ⟨by simp, Role.keepAt_of_get?_none hd _⟩
  | some v =>
    cases v with
    | text s =>
      apply ensures_accepted
      refine ⟨?_, ?_⟩
      · rintro _ ⟨⟩
        exact ⟨s, rfl⟩
      · rw [Role.keepAt_of_get? hd, Role.keep_data]
    | _ => exact ensures_rejected _ _

theorem checkProgram_reads (v : Json) : (checkProgram (some v)).Ensures fun p =>
    IsProgram v ∧ p.Formed ∧ p.toJson = Role.program.keep v := by
  unfold checkProgram
  split
  next fields hv =>
    cases hv
    have hversion := (checkVersion_reads (Table.get? fields "version")).under "version"
    have hdescription := (description_reads fields).under "description"
    have hcommands := (commandsAt_reads fun items _ w _ => checkCommand_reads w :
      (commandsAt "commands" fields).Ensures _).under "commands"
    refine (hversion.both (hdescription.both hcommands)).map ?_
    rintro ⟨s, d, cs⟩ ⟨⟨hs, hform⟩, ⟨htext, hkept⟩, items, hi, hall, hformed, hckept⟩
    refine ⟨.program hs hform htext hi hall, ⟨hform, hformed⟩, ?_⟩
    rw [Role.keep_object (by simp)]
    cases d with
    | none => simp [Program.toJson, Role.fields, Role.keepAt_of_get? hs, hkept, hckept]
    | some text => simp [Program.toJson, Role.fields, Role.keepAt_of_get? hs, hkept, hckept]
  next => exact ensures_rejected _ _

theorem IsProgram.isAccepted {v : Json} (h : IsProgram v) :
    (checkProgram (some v)).isAccepted = true := by
  cases h with
  | @program fields version items hversion hform hdescription hcommands hall =>
    have hd : (optional checkText (Table.get? fields "description")).isAccepted = true := by
      cases hd : Table.get? fields "description" with
      | none => rfl
      | some v =>
        obtain ⟨s, rfl⟩ := hdescription v hd
        rfl
    have hcs := commandsAt_isAccepted hcommands fun w hw => (hall w hw).isAccepted
    simp [checkProgram, hversion, checkVersion_text hform, hd, hcs]

theorem checkProgram_toJson {p : Program} (h : p.Formed) :
    checkProgram (some p.toJson) = .accepted p := by
  have hcs := commandItems_encodeCommands p.commands h.2 0
  obtain ⟨version, description, commands⟩ := p
  cases description with
  | none =>
    simp [Program.toJson, checkProgram, Table.get?, checkVersion_text h.1, commandsAt,
      checkCommands, hcs, optional, under, both, map]
  | some text =>
    simp [Program.toJson, checkProgram, Table.get?, checkVersion_text h.1, commandsAt,
      checkCommands, hcs, optional, checkText, under, both, map]

/-- A document passes the check exactly if it is a program of the grammar. What is returned is then
the document without undeclared fields, at every level; it passes the check again as it is, and
executing it never meets a form outside the language nor a literal that is no safe integer. -/
theorem checkProgram_accepts_grammar (doc : Option Json) :
    ((∃ p, checkProgram doc = .accepted p) ↔ ∃ v, doc = some v ∧ IsProgram v) ∧
    ∀ p, checkProgram doc = .accepted p →
      (∃ v, doc = some v ∧ p.toJson = Role.program.keep v) ∧
      checkProgram (some p.toJson) = .accepted p ∧
      ∀ (o : Options) (σ τ : Session), evaluate o p.commands σ ≠ .error .unknownForm τ ∧
        ∀ a, evaluate o p.commands σ ≠ .error (.integerOverflow "literal" a) τ := by
  have hread : ∀ p, checkProgram doc = .accepted p →
      ∃ v, doc = some v ∧ IsProgram v ∧ p.Formed ∧ p.toJson = Role.program.keep v := by
    intro p hp
    cases doc with
    | none => cases hp
    | some v => exact ⟨v, rfl, checkProgram_reads v p hp⟩
  refine ⟨⟨?_, ?_⟩, ?_⟩
  · rintro ⟨p, hp⟩
    obtain ⟨v, hv, hprogram, -⟩ := hread p hp
    exact ⟨v, hv, hprogram⟩
  · rintro ⟨v, rfl, hprogram⟩
    exact isAccepted_iff.1 hprogram.isAccepted
  · intro p hp
    obtain ⟨v, hv, -, hformed, hkept⟩ := hread p hp
    refine ⟨⟨v, hv, hkept⟩, checkProgram_toJson hformed, ?_⟩
    intro o σ τ
    have hregular := evaluate_regular o hformed.2
    refine ⟨?_, ?_⟩
    · exact fun he => hregular.of_error he trivial
    · exact fun a he => hregular.of_error he rfl

/-- A document with fields of its own at every level and its fields in no order. -/
theorem checkProgram_accepts_grammar_pruned :
    let point (v : String) := Json.object [("kind", .text "complexLit"), ("vertices", .texts [v])]
    let doc := Json.object [("author", .null), ("commands", .array [
      .object [("expr", .object [("mapping", .array [
            .object [("weight", .ofInt 1), ("to", .text "b"), ("from", .text "a")]]),
          ("args", .array [point "a", point "b"]), ("line", .ofInt 3), ("op", .text "glue"),
          ("kind", .text "opCall")]),
        ("name", .text "K"), ("kind", .text "complexDecl")]]), ("version", .text "1.0.0-rc.1")]
    let kept := Json.object [("version", .text "1.0.0-rc.1"), ("commands", .array [
      .object [("kind", .text "complexDecl"), ("name", .text "K"), ("expr", .object [
        ("kind", .text "opCall"), ("op", .text "glue"), ("args", .array [point "a", point "b"]),
        ("mapping", .array [.object [("from", .text "a"), ("to", .text "b")]])])]])]
    IsProgram doc ∧ ∃ p, checkProgram (some doc) = .accepted p ∧ p.toJson = kept ∧
      Role.program.keep doc = kept ∧ checkProgram (some kept) = .accepted p ∧
      ∀ o σ τ, evaluate o p.commands σ ≠ .error .unknownForm τ := by
  intro point doc kept
  have haccepted : ∃ p, checkProgram (some doc) = .accepted p ∧ p.toJson = kept :=
    ⟨_, rfl, rfl⟩
  obtain ⟨p, hp, hkept⟩ := haccepted
  obtain ⟨hiff, hall⟩ := checkProgram_accepts_grammar (some doc)
  obtain ⟨v, hv, hprogram⟩ := hiff.1 ⟨p, hp⟩
  obtain ⟨⟨w, hw, hsame⟩, hagain, hfaults⟩ := hall p hp
  cases hv
  cases hw
  refine ⟨hprogram, p, hp, hkept, hsame.symm.trans hkept, hkept ▸ hagain, ?_⟩
  exact fun o σ τ => (hfaults o σ τ).1

end SimplexScript.Document
