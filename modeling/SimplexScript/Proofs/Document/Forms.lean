import SimplexScript.Proofs.Document.Parts
import SimplexScript.Proofs.Language.Formed

/-!
# Checks of forms

A check accepts the expressions and commands of the grammar and no others.
What it makes of one is formed, and written out again it is the value without
the fields that are not declared. What is formed is read from what it is
written as.
-/

set_option autoImplicit false

namespace SimplexScript

@[elab_as_elim]
theorem Json.formInduction {P : Json → Prop}
    (object : ∀ fields, (∀ k items, Table.get? fields k = some (.array items) →
      ∀ v ∈ items, P v) → P (.object fields))
    (other : ∀ v, (∀ fields, v ≠ .object fields) → P v) (v : Json) : P v := by
  induction hn : sizeOf v using Nat.strongRecOn generalizing v with
  | ind n ih =>
    cases v with
    | object fields =>
      apply object fields
      intro k items h w hw
      have hlt : sizeOf w < n := by
        have hfield := List.sizeOf_lt_of_mem (Table.mem_of_get? h)
        have hitem := List.sizeOf_lt_of_mem hw
        simp only [Prod.mk.sizeOf_spec, Json.array.sizeOf_spec, Json.object.sizeOf_spec] at hfield hn
        omega
      exact ih (sizeOf w) hlt w rfl
    | _ => exact other _ (by simp)

namespace Document

open Verdict

section Expressions

variable {fields : List (String × Json)} {key : String}

theorem exprAt_eq (key : String) (fields : List (String × Json)) :
    exprAt key fields = required checkExpr (Table.get? fields key) := by
  induction fields with
  | nil => rfl
  | cons e rest ih =>
    obtain ⟨k, v⟩ := e
    by_cases hk : k = key <;> simp [exprAt, Table.get?, hk, ih, required]

theorem exprItems_eq (n : Nat) (items : List Json) :
    exprItems n items = checkItems (required checkExpr) n items := by
  induction items generalizing n with
  | nil => rfl
  | cons v rest ih => rw [exprItems, checkItems, ih, required]

theorem exprsAt_eq (key : String) (fields : List (String × Json)) :
    exprsAt key fields = checkList (required checkExpr) (Table.get? fields key) := by
  induction fields with
  | nil => rfl
  | cons e rest ih =>
    obtain ⟨k, v⟩ := e
    by_cases hk : k = key
    · rw [exprsAt, if_pos hk, Table.get?, if_pos hk]
      cases v with
      | array items => exact exprItems_eq 0 items
      | _ => rfl
    · rw [exprsAt, if_neg hk, Table.get?, if_neg hk, ih]

theorem encodeExprs_eq_map (es : List Expr) : encodeExprs es = es.map Expr.toJson := by
  induction es with
  | nil => rfl
  | cons e es ih => rw [encodeExprs, ih, List.map_cons]

def ReadExpr (v : Json) (e : Expr) : Prop :=
  IsExpr v ∧ e.Formed ∧ e.toJson = Role.form.keep v

theorem exprsAt_reads (h : ∀ items, Table.get? fields key = some (.array items) → ∀ w ∈ items,
      (checkExpr w).Ensures (ReadExpr w)) :
    (exprsAt key fields).Ensures fun es => ∃ items, Table.get? fields key = some (.array items) ∧
      (∀ w ∈ items, IsExpr w) ∧ Expr.FormedAll es ∧
        Role.keepAt key .forms fields = [(key, .array (encodeExprs es))] := by
  rw [exprsAt_eq]
  intro es hes
  obtain ⟨items, hitems, hall, hformed, hwrite⟩ := checkList_ensures h es hes
  refine ⟨items, hitems, hall, Expr.formedAll_iff.2 hformed, ?_⟩
  rw [Role.keepAt_of_get? hitems, Role.keep_array (by simp), encodeExprs_eq_map, hwrite]
  rfl

theorem mapping_reads (fields : List (String × Json)) :
    (optional (checkList checkPair) (Table.get? fields "mapping")).Ensures fun m =>
      (∀ v, Table.get? fields "mapping" = some v →
        ∃ pairs, v = .array pairs ∧ ∀ w ∈ pairs, IsPair w) ∧
      (∀ ps ∈ m, ∀ e ∈ ps, e.1 ≠ "" ∧ e.2 ≠ "") ∧
      Role.keepAt "mapping" .pairs fields = encodeMapping m := by
  cases hm : Table.get? fields "mapping" with
  | none => exact ensures_accepted ⟨by simp, by simp, Role.keepAt_of_get?_none hm _⟩
  | some v =>
    refine (checkList_ensures fun _ _ w _ => checkPair_reads w).map ?_
    rintro ps ⟨items, hv, hall, hnames, hwrite⟩
    cases hv
    refine ⟨?_, ?_, ?_⟩
    · rintro _ ⟨⟩
      exact ⟨items, rfl, hall⟩
    · rintro _ ⟨⟩
      exact hnames
    · rw [Role.keepAt_of_get? hm, Role.keep_array (by simp), encodeMapping, hwrite]
      rfl

theorem checkExpr_reads (v : Json) : (checkExpr v).Ensures (ReadExpr v) := by
  induction v using Json.formInduction with
  | other v hv =>
    cases v with
    | object fields => exact absurd rfl (hv fields)
    | _ =>
      rw [checkExpr]
      · exact ensures_rejected _ _
      · simp
  | object fields hitems =>
    rw [checkExpr]
    apply Ensures.ofChoice
    split
    next h =>
      have hk := hasKind_of_formKind h (by simp)
      refine (checkNameAt_reads "name").map ?_
      rintro name ⟨hn, hne⟩
      refine ⟨.ident hk ⟨name, hn, hne⟩, hne, ?_⟩
      simp [hk.keep, formFields, Expr.toJson, Role.keepAt_of_get? hn]
    next h =>
      have hk := hasKind_of_formKind h (by simp)
      refine ((checkVertices_reads _).under "vertices").map ?_
      rintro names ⟨⟨hv, hne⟩, hnil⟩
      refine ⟨.complexLit hk ⟨hv, hne⟩ hnil, ⟨hnil, hne⟩, ?_⟩
      simp [hk.keep, formFields, Expr.toJson, Role.keepAt_of_get? hv]
    next h =>
      have hk := hasKind_of_formKind h (by simp)
      refine ((checkLiteral_reads _).under "value").map ?_
      rintro _ ⟨z, hz, rfl, hsafe⟩
      refine ⟨.int hk hz hsafe, Number.isSafe_iff.2 ⟨z, rfl, hsafe⟩, ?_⟩
      simp [hk.keep, formFields, Expr.toJson, Role.keepAt_of_get? hz, Json.ofInt]
    next h =>
      have hk := hasKind_of_formKind h (by simp)
      have hargs := (exprsAt_reads (hitems "args")).under "args"
      refine ((checkNameAt_reads "op").both
        (hargs.both ((mapping_reads fields).under "mapping"))).map ?_
      rintro ⟨op, args, m⟩ ⟨⟨ho, hne⟩, ⟨items, hi, hall, hformed, hkept⟩, hpairs, hnames, hmap⟩
      refine ⟨.opCall hk ⟨op, ho, hne⟩ hi hall hpairs, ⟨hne, hformed, hnames⟩, ?_⟩
      simp [hk.keep, formFields, Expr.toJson, Role.keepAt_of_get? ho, hkept, hmap]
    next h =>
      have hk := hasKind_of_formKind h (by simp)
      have hargs := (exprsAt_reads (hitems "args")).under "args"
      refine ((checkNameAt_reads "name").both hargs).map ?_
      rintro ⟨name, args⟩ ⟨⟨hn, hne⟩, items, hi, hall, hformed, hkept⟩
      refine ⟨.funCall hk ⟨name, hn, hne⟩ hi hall, ⟨hne, hformed⟩, ?_⟩
      simp [hk.keep, formFields, Expr.toJson, Role.keepAt_of_get? hn, hkept]
    next => exact ensures_rejected _ _

theorem exprAt_reads (key : String) : (exprAt key fields).Ensures fun e =>
    ∃ v, Table.get? fields key = some v ∧ ReadExpr v e := by
  rw [exprAt_eq]
  cases Table.get? fields key with
  | none => exact ensures_rejected _ _
  | some v => exact fun e he => ⟨v, rfl, checkExpr_reads v e he⟩

theorem exprsAt_isAccepted {items : List Json} (h : Table.get? fields key = some (.array items))
    (hall : ∀ w ∈ items, (checkExpr w).isAccepted = true) :
    (exprsAt key fields).isAccepted = true := by
  rw [exprsAt_eq, h]
  exact isAccepted_checkList hall

/-- Nothing of the grammar is refused. -/
theorem IsExpr.isAccepted {v : Json} (h : IsExpr v) : (checkExpr v).isAccepted = true := by
  induction h with
  | ident kind name => simp [checkExpr, kind.formKind_eq, name.isAccepted]
  | complexLit kind vertices nonempty =>
    simp [checkExpr, kind.formKind_eq, vertices.1, checkVertices_texts vertices.2 nonempty]
  | int kind value safe =>
    simp [checkExpr, kind.formKind_eq, value, checkLiteral_ofInt safe]
  | @opCall fields items kind op args each mapping ih =>
    have hmapping : (optional (checkList checkPair)
        (Table.get? fields "mapping")).isAccepted = true := by
      cases hm : Table.get? fields "mapping" with
      | none => rfl
      | some v =>
        obtain ⟨pairs, rfl, hpairs⟩ := mapping v hm
        simp [optional, isAccepted_checkList fun w hw => (hpairs w hw).isAccepted]
    simp [checkExpr, kind.formKind_eq, op.isAccepted, exprsAt_isAccepted args ih, hmapping]
  | funCall kind name args each ih =>
    simp [checkExpr, kind.formKind_eq, name.isAccepted, exprsAt_isAccepted args ih]

theorem HasExpr.isAccepted (h : HasExpr fields key) : (exprAt key fields).isAccepted = true := by
  obtain ⟨v, hv, he⟩ := h
  rw [exprAt_eq, hv]
  exact he.isAccepted

mutual

/-- A formed expression is read from what it is written as. -/
theorem checkExpr_toJson : ∀ e : Expr, e.Formed → checkExpr e.toJson = .accepted e
  | .ident name, h => by
    have hn : name ≠ "" := h
    simp [Expr.toJson, checkExpr, formKind, checkNameAt, Table.get?, checkName_text hn, under, map,
      ofChoice]
  | .complexLit vertices, h => by
    simp [Expr.toJson, checkExpr, formKind, Table.get?, checkVertices_texts h.2 h.1, under, map,
      ofChoice]
  | .int a, h => by
    obtain ⟨z, rfl, hz⟩ := Number.isSafe_iff.1 h
    have hread := checkLiteral_ofInt hz
    rw [Json.ofInt] at hread
    simp [Expr.toJson, checkExpr, formKind, Table.get?, hread, under, map, ofChoice]
  | .opCall op args mapping, h => by
    have hargs := exprItems_encodeExprs args h.2.1 0
    cases mapping with
    | none =>
      simp [Expr.toJson, encodeMapping, checkExpr, formKind, checkNameAt, exprsAt, checkExprs,
        Table.get?, checkName_text h.1, hargs, optional, under, both, map, ofChoice]
    | some m =>
      have hpairs : checkList checkPair (some (.array (m.map encodePair))) = .accepted m :=
        checkList_map fun e he => checkPair_encodePair (h.2.2 m rfl e he)
      simp [Expr.toJson, encodeMapping, checkExpr, formKind, checkNameAt, exprsAt, checkExprs,
        Table.get?, checkName_text h.1, hargs, hpairs, optional, under, both, map, ofChoice]
  | .funCall name args, h => by
    have hargs := exprItems_encodeExprs args h.2 0
    simp [Expr.toJson, checkExpr, formKind, checkNameAt, exprsAt, checkExprs, Table.get?,
      checkName_text h.1, hargs, under, both, map, ofChoice]
  | .unknown, h => h.elim

theorem exprItems_encodeExprs : ∀ es : List Expr, Expr.FormedAll es → ∀ n,
    exprItems n (encodeExprs es) = .accepted es
  | [], _, _ => rfl
  | e :: es, h, n => by
    rw [encodeExprs, exprItems, checkExpr_toJson e h.1, exprItems_encodeExprs es h.2]
    rfl

end

end Expressions

section Commands

variable {fields : List (String × Json)} {key : String}

theorem commandItems_eq (n : Nat) (items : List Json) :
    commandItems n items = checkItems (required checkCommand) n items := by
  induction items generalizing n with
  | nil => rfl
  | cons v rest ih => rw [commandItems, checkItems, ih, required]

theorem commandsAt_eq (key : String) (fields : List (String × Json)) :
    commandsAt key fields = checkList (required checkCommand) (Table.get? fields key) := by
  induction fields with
  | nil => rfl
  | cons e rest ih =>
    obtain ⟨k, v⟩ := e
    by_cases hk : k = key
    · rw [commandsAt, if_pos hk, Table.get?, if_pos hk]
      cases v with
      | array items => exact commandItems_eq 0 items
      | _ => rfl
    · rw [commandsAt, if_neg hk, Table.get?, if_neg hk, ih]

theorem encodeCommands_eq_map (cs : List Command) : encodeCommands cs = cs.map Command.toJson := by
  induction cs with
  | nil => rfl
  | cons c cs ih => rw [encodeCommands, ih, List.map_cons]

def ReadCommand (v : Json) (c : Command) : Prop :=
  IsCommand v ∧ c.Formed ∧ c.toJson = Role.form.keep v

theorem commandsAt_reads (h : ∀ items, Table.get? fields key = some (.array items) → ∀ w ∈ items,
      (checkCommand w).Ensures (ReadCommand w)) :
    (commandsAt key fields).Ensures fun cs =>
      ∃ items, Table.get? fields key = some (.array items) ∧
        (∀ w ∈ items, IsCommand w) ∧ Command.FormedAll cs ∧
          Role.keepAt key .forms fields = [(key, .array (encodeCommands cs))] := by
  rw [commandsAt_eq]
  intro cs hcs
  obtain ⟨items, hitems, hall, hformed, hwrite⟩ := checkList_ensures h cs hcs
  refine ⟨items, hitems, hall, Command.formedAll_iff.2 hformed, ?_⟩
  rw [Role.keepAt_of_get? hitems, Role.keep_array (by simp), encodeCommands_eq_map, hwrite]
  rfl

theorem checkCommand_reads (v : Json) : (checkCommand v).Ensures (ReadCommand v) := by
  induction v using Json.formInduction with
  | other v hv =>
    cases v with
    | object fields => exact absurd rfl (hv fields)
    | _ =>
      rw [checkCommand]
      · exact ensures_rejected _ _
      · simp
  | object fields hitems =>
    rw [checkCommand]
    apply Ensures.ofChoice
    split
    next h =>
      have hk := hasKind_of_formKind h (by simp)
      refine ((checkNameAt_reads "name").both ((exprAt_reads "expr").under "expr")).map ?_
      rintro ⟨name, e⟩ ⟨⟨hn, hne⟩, v, hv, hexpr, hformed, hkept⟩
      refine ⟨.complexDecl hk ⟨name, hn, hne⟩ ⟨v, hv, hexpr⟩, ⟨hne, hformed⟩, ?_⟩
      simp [hk.keep, formFields, Command.toJson, Role.keepAt_of_get? hn, Role.keepAt_of_get? hv,
        hkept]
    next h =>
      have hk := hasKind_of_formKind h (by simp)
      refine (checkNameAt_reads "name").map ?_
      rintro name ⟨hn, hne⟩
      refine ⟨.vertexDecl hk ⟨name, hn, hne⟩, hne, ?_⟩
      simp [hk.keep, formFields, Command.toJson, Role.keepAt_of_get? hn]
    next h =>
      have hk := hasKind_of_formKind h (by simp)
      refine ((checkNameAt_reads "name").both ((exprAt_reads "expr").under "expr")).map ?_
      rintro ⟨name, e⟩ ⟨⟨hn, hne⟩, v, hv, hexpr, hformed, hkept⟩
      refine ⟨.assign hk ⟨name, hn, hne⟩ ⟨v, hv, hexpr⟩, ⟨hne, hformed⟩, ?_⟩
      simp [hk.keep, formFields, Command.toJson, Role.keepAt_of_get? hn, Role.keepAt_of_get? hv,
        hkept]
    next h =>
      have hk := hasKind_of_formKind h (by simp)
      have hyes := (commandsAt_reads (hitems "then")).under "then"
      have hno := (commandsAt_reads (hitems "else")).under "else"
      refine (((exprAt_reads "cond").under "cond").both (hyes.both hno)).map ?_
      rintro ⟨e, yes, no⟩ ⟨⟨v, hv, hexpr, hformed, hkept⟩, ⟨ys, hys, hyall, hyformed, hykept⟩,
        ns, hns, hnall, hnformed, hnkept⟩
      refine ⟨.branch hk ⟨v, hv, hexpr⟩ hys hns hyall hnall, ⟨hformed, hyformed, hnformed⟩, ?_⟩
      simp [hk.keep, formFields, Command.toJson, Role.keepAt_of_get? hv, hkept, hykept, hnkept]
    next h =>
      have hk := hasKind_of_formKind h (by simp)
      have hbody := (commandsAt_reads (hitems "body")).under "body"
      refine (((exprAt_reads "cond").under "cond").both hbody).map ?_
      rintro ⟨e, body⟩ ⟨⟨v, hv, hexpr, hformed, hkept⟩, items, hi, hall, hbformed, hbkept⟩
      refine ⟨.loop hk ⟨v, hv, hexpr⟩ hi hall, ⟨hformed, hbformed⟩, ?_⟩
      simp [hk.keep, formFields, Command.toJson, Role.keepAt_of_get? hv, hkept, hbkept]
    next h =>
      have hk := hasKind_of_formKind h (by simp)
      have hparams := (checkNames_reads (Table.get? fields "params")).under "params"
      refine ((checkNameAt_reads "name").both
        (hparams.both ((exprAt_reads "body").under "body"))).map ?_
      rintro ⟨name, params, e⟩ ⟨⟨hn, hne⟩, ⟨hp, hpne⟩, v, hv, hexpr, hformed, hkept⟩
      refine ⟨.functionDecl hk ⟨name, hn, hne⟩ ⟨hp, hpne⟩ ⟨v, hv, hexpr⟩, ⟨hne, hpne, hformed⟩, ?_⟩
      simp [hk.keep, formFields, Command.toJson, Role.keepAt_of_get? hn, Role.keepAt_of_get? hp,
        Role.keepAt_of_get? hv, hkept]
    next => exact ensures_rejected _ _

theorem commandsAt_isAccepted {items : List Json}
    (h : Table.get? fields key = some (.array items))
    (hall : ∀ w ∈ items, (checkCommand w).isAccepted = true) :
    (commandsAt key fields).isAccepted = true := by
  rw [commandsAt_eq, h]
  exact isAccepted_checkList hall

theorem IsCommand.isAccepted {v : Json} (h : IsCommand v) :
    (checkCommand v).isAccepted = true := by
  induction h with
  | complexDecl kind name expr =>
    simp [checkCommand, kind.formKind_eq, name.isAccepted, expr.isAccepted]
  | vertexDecl kind name => simp [checkCommand, kind.formKind_eq, name.isAccepted]
  | assign kind name expr =>
    simp [checkCommand, kind.formKind_eq, name.isAccepted, expr.isAccepted]
  | branch kind cond hyes hno _ _ ihyes ihno =>
    simp [checkCommand, kind.formKind_eq, cond.isAccepted, commandsAt_isAccepted hyes ihyes,
      commandsAt_isAccepted hno ihno]
  | loop kind cond hbody _ ih =>
    simp [checkCommand, kind.formKind_eq, cond.isAccepted, commandsAt_isAccepted hbody ih]
  | functionDecl kind name params body =>
    simp [checkCommand, kind.formKind_eq, name.isAccepted, params.1, checkNames_texts params.2,
      body.isAccepted]

mutual

theorem checkCommand_toJson : ∀ c : Command, c.Formed → checkCommand c.toJson = .accepted c
  | .complexDecl name e, h => by
    simp [Command.toJson, checkCommand, formKind, checkNameAt, exprAt, Table.get?,
      checkName_text h.1, checkExpr_toJson e h.2, under, both, map, ofChoice]
  | .vertexDecl name, h => by
    have hn : name ≠ "" := h
    simp [Command.toJson, checkCommand, formKind, checkNameAt, Table.get?, checkName_text hn, under,
      map, ofChoice]
  | .assign name e, h => by
    simp [Command.toJson, checkCommand, formKind, checkNameAt, exprAt, Table.get?,
      checkName_text h.1, checkExpr_toJson e h.2, under, both, map, ofChoice]
  | .branch cond yes no, h => by
    have hyes := commandItems_encodeCommands yes h.2.1 0
    have hno := commandItems_encodeCommands no h.2.2 0
    simp [Command.toJson, checkCommand, formKind, exprAt, commandsAt, checkCommands, Table.get?,
      checkExpr_toJson cond h.1, hyes, hno, under, both, map, ofChoice]
  | .loop cond body, h => by
    have hbody := commandItems_encodeCommands body h.2 0
    simp [Command.toJson, checkCommand, formKind, exprAt, commandsAt, checkCommands, Table.get?,
      checkExpr_toJson cond h.1, hbody, under, both, map, ofChoice]
  | .functionDecl fn, h => by
    simp [Command.toJson, checkCommand, formKind, checkNameAt, exprAt, Table.get?,
      checkName_text h.1, checkNames_texts h.2.1, checkExpr_toJson fn.body h.2.2, under, both, map,
      ofChoice]
  | .unknown, h => h.elim

theorem commandItems_encodeCommands : ∀ cs : List Command, Command.FormedAll cs → ∀ n,
    commandItems n (encodeCommands cs) = .accepted cs
  | [], _, _ => rfl
  | c :: cs, h, n => by
    rw [encodeCommands, commandItems, checkCommand_toJson c h.1, commandItems_encodeCommands cs h.2]
    rfl

end

end Commands

end Document

end SimplexScript
