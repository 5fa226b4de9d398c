import SimplexScript.Proofs.Language.CanonicalValues
import SimplexScript.Proofs.Language.StoreSafety
import SimplexScript.Proofs.Record

/-!
# Reports of runs

A run reports every name that it leaves bound to an address, with the complex
at that address. Names are bound once, so the report has one entry for each.
It is a record, and a record has no entry under its reserved key: a variable
of that name is the only one that a report can lose.
-/

set_option autoImplicit false

namespace SimplexScript

theorem summaries_eq_ok {n : Notes} {s : State} {env : Environment} {t : Table String Summary}
    (h : summaries n s env = .ok t) :
    (∀ e, e ∈ t ↔ ∃ a c, (e.1, Value.loc a) ∈ env ∧ s.access a = .ok c ∧
      e.2 = Summary.ofComplex (n.view c)) ∧
    (∀ x a, (x, Value.loc a) ∈ env → ∃ c, s.access a = .ok c) ∧
    (Table.keys t).Sublist (Table.keys env) := by
  induction env generalizing t with
  | nil =>
    cases h
    exact ⟨by simp, by simp, .slnil⟩
  | cons d rest ih =>
    obtain ⟨name, v⟩ := d
    cases v with
    | loc a =>
      cases hc : s.access a with
      | error f => simp [summaries, hc, bind, Except.bind] at h
      | ok c =>
        cases hr : summaries n s rest with
        | error f => simp [summaries, hc, hr, bind, Except.bind] at h
        | ok others =>
          simp only [summaries, hc, hr, bind, Except.bind, pure, Except.pure,
            Except.ok.injEq] at h
          obtain ⟨hmem, hread, hsub⟩ := ih hr
          subst h
          refine ⟨?_, ?_, hsub.cons_cons name⟩
          · intro e
            rw [List.mem_cons, hmem]
            constructor
            · rintro (rfl | ⟨b, d, hb, hd, he⟩)
              · exact ⟨a, c, by simp, hc, rfl⟩
              · exact ⟨b, d, List.mem_cons_of_mem _ hb, hd, he⟩
            · rintro ⟨b, d, hb, hd, he⟩
              rcases List.mem_cons.1 hb with hb | hb
              · obtain ⟨hname, hab⟩ := Prod.ext_iff.1 hb
                cases hab
                rw [hc] at hd
                cases hd
                exact .inl (Prod.ext hname he)
              · exact .inr ⟨b, d, hb, hd, he⟩
          · intro x b hb
            rcases List.mem_cons.1 hb with hb | hb
            · cases hb
              exact ⟨c, hc⟩
            · exact hread x b hb
    | _ =>
      obtain ⟨hmem, hread, hsub⟩ := ih h
      refine ⟨?_, ?_, hsub.cons name⟩
      · intro e
        rw [hmem]
        simp
      · intro x b hb
        exact hread x b (by simpa using hb)

theorem names_stepwise : Stepwise (fun _ => True) (fun k => (Table.keys k.env).Nodup)
    (fun _ _ => True) (fun _ => True) where
  refl _ := trivial
  trans _ _ _ _ _ := trivial
  unknown := trivial
  rounds _ := trivial
  condition _ _ _ _ _ _ := .any _
  complexDecl o env s name e h _ :=
    (Meets.any _).bind fun _ _ => .pure ⟨Table.nodup_keys_set h _ _, trivial⟩
  vertexDecl env s name h :=
    declareVertex_yields (fun _ _ _ => ⟨Table.nodup_keys_set h _ _, trivial⟩) trivial
  assign o env s name e h _ := by
    apply (Meets.any _).bind
    intro v _
    cases v with
    | loc a =>
      exact (Meets.any _).bind fun _ _ => (Meets.any _).bind fun _ _ => .pure ⟨h, trivial⟩
    | _ => exact .throw trivial
  functionDecl env s fn h _ := Table.nodup_keys_set h _ _
  block _ _ _ h _ _ := ⟨h, trivial⟩

theorem names_initial : (Table.keys Config.initial.env).Nodup := by decide +kernel

theorem run_eq_ok {doc : Option Json} {o : Options} {σ τ : Session}
    {complexes : Table String Summary} : run doc o σ = .ok complexes τ ↔
      ∃ p k, Document.checkProgram doc = .accepted p ∧ evaluate o p.commands σ = .ok k τ ∧
        collect τ.notes k = .ok complexes := by
  unfold run
  cases Document.checkProgram doc with
  | rejected issues =>
    constructor
    · intro h
      cases h
    · rintro ⟨p, k, hp, -⟩
      cases hp
  | accepted p =>
    have hreport : ∀ k u, (get >>= fun session : Session =>
        (liftM (collect session.notes k) : Traced _)) u = .ok complexes τ ↔
          u = τ ∧ collect τ.notes k = .ok complexes := by
      intro k u
      change (liftM (collect u.notes k) : Traced _) u = .ok complexes τ ↔ _
      cases hc : collect u.notes k with
      | ok t =>
        constructor
        · intro h
          cases h
          exact ⟨rfl, hc⟩
        · rintro ⟨rfl, h⟩
          rw [hc] at h
          cases h
          rfl
      | error f =>
        constructor
        · intro h
          cases h
        · rintro ⟨rfl, h⟩
          rw [hc] at h
          cases h
    dsimp only
    rw [bind_eq_ok]
    constructor
    · rintro ⟨k, u, hk, h⟩
      obtain ⟨rfl, hc⟩ := (hreport k u).1 h
      exact ⟨p, k, rfl, hk, hc⟩
    · rintro ⟨p', k, hp, hk, hc⟩
      cases hp
      exact ⟨k, τ, hk, (hreport k τ).2 ⟨rfl, hc⟩⟩

theorem view_stored {doc : Option Json} {p : Document.Program} {o : Options} {σ τ : Session}
    {k : Config} (hp : Document.checkProgram doc = .accepted p)
    (hk : evaluate o p.commands σ = .ok k τ) {a : Number} {c : Complex}
    (hc : k.state.access a = .ok c) (n : Notes) : n.view c = c := by
  have hlit := Document.checkProgram_ensures doc p hp
  have hm := canonicalGrowth_kept.stepwise.execAll_meets o _ _ canonicalGrowth.holds_initial
    p.commands hlit
  have hstore := (hm.of_ok hk).1.store
  unfold State.access at hc
  split at hc
  next d hd =>
    cases hc
    exact Notes.view_of_draft_eq_none n (hstore _ (Table.mem_of_get? hd)).1.draft
  next => cases hc

/-- A run that has a result reports, once each, the names that its commands leave bound to an
address, with a summary of the complex at that address, but never the reserved key. So a report
has exactly these names if and only if no variable has the reserved key for its name. -/
theorem run_reports_variables {doc : Option Json} {o : Options} {σ τ : Session}
    {complexes : Table String Summary} (h : run doc o σ = .ok complexes τ) :
    ∃ p k, Document.checkProgram doc = .accepted p ∧ evaluate o p.commands σ = .ok k τ ∧
      (Table.keys complexes).Nodup ∧
      (∀ name summary, Table.get? complexes name = some summary ↔
        name ≠ Record.reservedKey ∧ ∃ a c, Table.get? k.env name = some (.loc a) ∧
          k.state.access a = .ok c ∧ summary = Summary.ofComplex c) ∧
      ((∀ name, name ∈ Table.keys complexes ↔ ∃ a, Table.get? k.env name = some (.loc a)) ↔
        ∀ a, Table.get? k.env Record.reservedKey ≠ some (.loc a)) := by
  obtain ⟨p, k, hp, hk, hcollect⟩ := run_eq_ok.1 h
  have hnames : (Table.keys k.env).Nodup := by
    have hm := names_stepwise.execAll_meets o _ _ names_initial p.commands fun _ _ => trivial
    exact (hm.of_ok hk).1
  obtain ⟨t, ht, rfl⟩ : ∃ t, summaries τ.notes k.state k.env = .ok t ∧
      Record.listing t = complexes := by
    unfold collect at hcollect
    cases ht : summaries τ.notes k.state k.env with
    | error f => simp [ht, Except.map] at hcollect
    | ok t => exact ⟨t, rfl, by simpa [ht, Except.map] using hcollect⟩
  obtain ⟨hmem, hread, hsub⟩ := summaries_eq_ok ht
  have hnodup := Record.nodup_keys_listing (hnames.sublist hsub)
  have hentry : ∀ name summary, Table.get? (Record.listing t) name = some summary ↔
      name ≠ Record.reservedKey ∧ ∃ a c, Table.get? k.env name = some (.loc a) ∧
        k.state.access a = .ok c ∧ summary = Summary.ofComplex c := by
    intro name summary
    rw [Table.get?_eq_some_iff hnodup, Record.mem_listing, hmem, and_comm]
    simp only [Table.get?_eq_some_iff hnames]
    constructor
    · rintro ⟨hne, a, c, ha, hc, he⟩
      exact ⟨hne, a, c, ha, hc, view_stored hp hk hc τ.notes ▸ he⟩
    · rintro ⟨hne, a, c, ha, hc, he⟩
      exact ⟨hne, a, c, ha, hc, (view_stored hp hk hc τ.notes).symm ▸ he⟩
  refine ⟨p, k, hp, hk, hnodup, hentry, ?_⟩
  have hkeys : ∀ name, name ∈ Table.keys (Record.listing t) ↔
      name ≠ Record.reservedKey ∧ ∃ a, Table.get? k.env name = some (.loc a) := by
    intro name
    constructor
    · intro hname
      obtain ⟨summary, hs⟩ := Table.exists_get?_of_mem_keys hname
      obtain ⟨hne, a, c, ha, -⟩ := (hentry name summary).1 hs
      exact ⟨hne, a, ha⟩
    · rintro ⟨hne, a, ha⟩
      obtain ⟨c, hc⟩ := hread name a (Table.mem_of_get? ha)
      exact Table.mem_keys (Table.mem_of_get? ((hentry name _).2 ⟨hne, a, c, ha, hc, rfl⟩))
  constructor
  · intro hall a ha
    exact ((hkeys _).1 ((hall Record.reservedKey).2 ⟨a, ha⟩)).1 rfl
  · intro hfree name
    rw [hkeys]
    constructor
    · exact And.right
    · rintro ⟨a, ha⟩
      exact ⟨fun hname => hfree a (hname ▸ ha), a, ha⟩

/-- Variables that a record lists in another order than they were declared, one of them in place
of an operator. -/
theorem run_reports_variables_listed :
    let declare (name v : String) := Json.object [("kind", .text "complexDecl"),
      ("name", .text name),
      ("expr", .object [("kind", .text "complexLit"), ("vertices", .texts [v])])]
    let doc := Json.object [("version", .text "1.0.0"), ("commands", .array
      [declare "B" "b", declare "10" "x", declare "union" "u", declare "2" "y"])]
    ∃ complexes τ p k, run (some doc) Options.default .empty = .ok complexes τ ∧
      Table.keys complexes = ["2", "10", "union", "B"] ∧
      Document.checkProgram (some doc) = .accepted p ∧
      evaluate Options.default p.commands .empty = .ok k τ ∧
      ∀ name, name ∈ ["2", "10", "union", "B"] → ∃ a c,
        Table.get? k.env name = some (.loc a) ∧ k.state.access a = .ok c ∧
          Table.get? complexes name = some (Summary.ofComplex c) := by
  intro declare doc
  have hkeys : (match run (some doc) Options.default .empty with
    | .ok complexes _ => decide (Table.keys complexes = ["2", "10", "union", "B"])
    | .error _ _ => false) = true := by decide +kernel
  clear_value doc
  cases hrun : run (some doc) Options.default .empty with
  | error f τ =>
    rw [hrun] at hkeys
    cases hkeys
  | ok complexes τ =>
    rw [hrun] at hkeys
    have hlisted := of_decide_eq_true hkeys
    obtain ⟨p, k, hp, hk, -, hentry, -⟩ := run_reports_variables hrun
    refine ⟨complexes, τ, p, k, rfl, hlisted, hp, hk, ?_⟩
    intro name hname
    obtain ⟨summary, hs⟩ := Table.exists_get?_of_mem_keys (hlisted ▸ hname)
    obtain ⟨-, a, c, ha, hc, rfl⟩ := (hentry name summary).1 hs
    exact ⟨a, c, ha, hc, hs⟩

/-- A variable under the reserved key is declared, stored and missing in the report. -/
theorem reserved_variable_unreported :
    let doc := Json.object [("version", .text "1.0.0"), ("commands", .array
      [.object [("kind", .text "complexDecl"), ("name", .text "__proto__"),
        ("expr", .object [("kind", .text "complexLit"), ("vertices", .texts ["a"])])]])]
    ∃ p k τ, run (some doc) Options.default .empty = .ok [] τ ∧
      Document.checkProgram (some doc) = .accepted p ∧
      evaluate Options.default p.commands .empty = .ok k τ ∧
      Table.get? k.env "__proto__" = some (.loc (.ofInt 0)) := by
  intro doc
  exact ⟨_, _, _, rfl, rfl, rfl, rfl⟩

end SimplexScript
