import SimplexScript.Proofs.Complex.Canonical
import SimplexScript.Proofs.Document.Runs
import SimplexScript.Proofs.Language.Growth

/-!
# Canonical form of every value

If every literal lists a vertex, every complex that a run computes is
canonical and has a simplex. The guards against identifications that disagree
and against picking from an empty complex are then idle. Checked documents
have only such literals.
-/

set_option autoImplicit false

namespace SimplexScript

namespace Complex

variable {N : String → Prop} {k l : Complex}

theorem Over.proper_union (ho : k.Over N) (hk : k.Proper) (hol : l.Over N) (hl : l.Proper) :
    (ofSimplices ((k.maximal ++ l.maximal).map (image (k.partition.merge l.partition)))
      ((k.partition.merge l.partition).addAll (k.maximal ++ l.maximal).flatten)).Proper :=
  (canonical_sides hk.toCanonical hl.toCanonical (Partition.merge_forest _ _)
    (fun _ => Partition.mem_nodes_merge ho.forest hol.forest)
    (fun _ hx => Partition.root_merge_left l.partition hx)
    fun _ hx => Partition.root_merge_right k.partition hx).proper (by simp [hk.maximal_ne_nil])

theorem Over.proper_glue (ho : k.Over N) (hk : k.Proper) (hol : l.Over N) (hl : l.Proper)
    {m : Mapping} (hm : ∀ e ∈ m, e.1 ∈ k.partition.nodes ∧ e.2 ∈ l.partition.nodes) :
    (ofSimplices
      ((k.maximal ++ l.maximal).map (image (joinPairs (k.partition.merge l.partition) m)))
      ((joinPairs (k.partition.merge l.partition) m).addAll
        (k.maximal ++ l.maximal).flatten)).Proper := by
  have hmerge := Partition.merge_forest k.partition l.partition
  rw [joinPairs_eq_unions]
  refine (canonical_sides hk.toCanonical hl.toCanonical (Partition.unions_forest hmerge m)
    ?_ ?_ ?_).proper (by simp [hk.maximal_ne_nil])
  · intro x
    rw [Partition.mem_nodes_unions hmerge, Partition.mem_nodes_merge ho.forest hol.forest]
    constructor
    · rintro (h | ⟨e, he, rfl | rfl⟩)
      · exact h
      · exact Or.inl (hm e he).1
      · exact Or.inr (hm e he).2
    · exact Or.inl
  · intro x hx
    exact Partition.root_unions_mono hmerge m (Partition.root_merge_left l.partition hx)
  · intro x hx
    exact Partition.root_unions_mono hmerge m (Partition.root_merge_right k.partition hx)

theorem Proper.latestVertex?_ne_none (hk : k.Proper) (order : Table String Number) :
    k.latestVertex? order ≠ none := by
  obtain ⟨s, hs⟩ := List.exists_mem_of_ne_nil _ hk.maximal_ne_nil
  obtain ⟨v, hv⟩ := List.exists_mem_of_ne_nil s (hk.simplex_ne_nil s hs)
  have hmem : v ∈ k.vertices := mem_vertices.2 ⟨s, hs, hv⟩
  unfold latestVertex?
  split
  next h =>
    rw [h] at hmem
    cases hmem
  next => simp

end Complex

def canonicalGrowth : Growth where
  complex _ c := c.Over (fun _ => True) ∧ c.Proper
  vertex _ _ := True
  literal vs := vs ≠ []
  excluded c := c = .incompatibleIdentification ∨ c = .emptyComplex

theorem canonicalGrowth_spares {f : Fault} (hi : f.code ≠ some .incompatibleIdentification)
    (he : f.code ≠ some .emptyComplex) : canonicalGrowth.Spares f := by
  rintro c hc (rfl | rfl)
  · exact hi hc
  · exact he hc

theorem canonicalGrowth_degenerate (operation : String) (s t : List String) :
    canonicalGrowth.Spares (.degenerateSimplex operation s t) :=
  canonicalGrowth_spares (by simp [Fault.code]) (by simp [Fault.code])

theorem canonicalGrowth_lawful (s : State) : (canonicalGrowth.discipline s).Lawful where
  guards := by
    rintro c (rfl | rfl) <;> simp [Code.guards]
  view n c h := by
    rw [show n.view c = c from Notes.view_of_draft_eq_none n h.1.draft]
    exact h
  point v _ := ⟨Complex.over_point trivial, Complex.proper_point v⟩
  literal vs c hne h :=
    ⟨Complex.over_ofVertices (fun _ _ => trivial) h, Complex.proper_ofVertices hne h⟩
  union k l hk hl := by
    apply Complex.union_yields
    · intro e he
      rw [Complex.disagreement_eq_none hk.2.toCanonical hl.2.toCanonical] at he
      cases he
    · apply Complex.quotient_yields (canonicalGrowth_degenerate _)
      intro _
      exact ⟨Complex.over_quotient (Partition.merge_forest _ _) (hk.1.merge hl.1)
        (hk.1.sides hl.1), hk.1.proper_union hk.2 hl.1 hl.2⟩
  join k l hk hl := by
    apply Complex.quotient_yields (canonicalGrowth_degenerate _)
    intro _
    exact ⟨Complex.over_quotient (Partition.merge_forest _ _) (hk.1.merge hl.1)
      (hk.1.spanned hl.1), Complex.proper_spans hk.1.forest hk.2.toCanonical hk.2.maximal_ne_nil
        hl.1.forest hl.2.toCanonical hl.2.maximal_ne_nil⟩
  glue k l m hk hl := by
    apply Complex.glue_yields
    · exact fun _ _ => canonicalGrowth_spares (by simp [Fault.code]) (by simp [Fault.code])
    · exact fun _ => canonicalGrowth_spares (by simp [Fault.code]) (by simp [Fault.code])
    · intro hc hm
      apply Complex.checkConsistency_yields
      intro e he
      rw [Complex.find?_inconsistent_eq_none hc hm] at he
      cases he
    · intro hm
      apply Complex.quotient_yields (canonicalGrowth_degenerate _)
      intro _
      have hforest := Partition.unions_forest
        (Partition.merge_forest k.partition l.partition) m
      exact ⟨Complex.over_quotient hforest (hk.1.glued hl.1 hm) (hk.1.sides hl.1),
        hk.1.proper_glue hk.2 hl.1 hl.2 hm⟩
  pick c order hc := by
    apply Complex.pick_yields
    · exact fun h => absurd h (hc.2.latestVertex?_ne_none order)
    · intro v hv
      obtain ⟨heq, hmem⟩ := hc.1.picked hv
      rw [heq]
      exact ⟨Complex.over_classPoint hc.1 hmem, Complex.proper_classPoint _ _⟩

theorem canonicalGrowth_kept : canonicalGrowth.Kept where
  lawful := canonicalGrowth_lawful
  access := by simp [canonicalGrowth]
  complex _ _ _ _ h := h
  vertex _ _ _ _ _ := trivial
  fresh _ _ _ _ := trivial

/-- The complexes in a value, in whatever environments its functions captured too. -/
inductive Value.Carries : Value → Complex → Prop
  | complex (c : Complex) : Carries (.complex c) c
  | captured {fn : Function} {env : List (String × Value)} {x : String} {v : Value} {c : Complex}
      (hv : (x, v) ∈ env) (h : Carries v c) : Carries (.closure fn env) c

theorem Discipline.Accepts.complex_of_carries {D : Discipline} {v : Value} {c : Complex}
    (h : v.Carries c) (hv : D.Accepts v) : D.complex c := by
  induction h with
  | complex c =>
    cases hv with
    | complex hc => exact hc
  | captured hmem _ ih =>
    cases hv with
    | closure _ henv => exact ih (henv _ hmem)

/-- The complexes that arise while an expression is evaluated: what names are bound to, the values
of the expression and of its parts, those of an operator with the first of its arguments only, and
whatever arises in the bodies of functions called. -/
inductive Arises (limit : Number) (s : State) : Environment → Expr → Complex → Prop
  | bound {env : Environment} {e : Expr} {x : String} {v : Value} {c : Complex}
      (hx : (x, v) ∈ env) (hv : v.Carries c) : Arises limit s env e c
  | value {env : Environment} {e : Expr} {v : Value} {c : Complex} {levels : Nat} {m n : Notes}
      (h : evalWith (callWithin limit s levels) env s e m = .ok v n) (hv : v.Carries c) :
      Arises limit s env e c
  | operand {env : Environment} {op : String} {args : List Expr} {m : Option Complex.Mapping}
      {a : Expr} {c : Complex} (ha : a ∈ args) (h : Arises limit s env a c) :
      Arises limit s env (.opCall op args m) c
  | partway {env : Environment} {op : String} {args : List Expr} {m : Option Complex.Mapping}
      {c : Complex} (i : Nat) (h : Arises limit s env (.opCall op (args.take i) m) c) :
      Arises limit s env (.opCall op args m) c
  | argument {env : Environment} {name : String} {args : List Expr} {a : Expr} {c : Complex}
      (ha : a ∈ args) (h : Arises limit s env a c) : Arises limit s env (.funCall name args) c
  | body {env captured : Environment} {name : String} {args : List Expr} {fn : Function}
      {vs : List Value} {c : Complex} {levels : Nat} {m n : Notes}
      (hf : Table.get? env name = some (.closure fn captured))
      (hargs : evalArgs (callWithin limit s levels) env s args m = .ok vs n)
      (h : Arises limit s (bindParams fn captured vs) fn.body c) :
      Arises limit s env (.funCall name args) c

theorem Arises.complex {D : Discipline} (hD : D.Lawful) {limit : Number} {s : State}
    (hs : D.Serves s) {env : Environment} {e : Expr} {c : Complex} (h : Arises limit s env e c)
    (henv : D.AcceptsAll env) (he : ∀ vs ∈ e.literals, D.literal vs) : D.complex c := by
  induction h with
  | bound hx hv => exact (henv _ hx).complex_of_carries hv
  | @value env e v c levels m n h hv =>
    have hm := (hD.inherited hs limit).within_meets (n := levels) ⟨henv, he⟩
    exact (hm.of_ok h).complex_of_carries hv
  | operand ha _ ih =>
    exact ih henv fun vs hvs => he vs (Expr.mem_literalsOfAll.2 ⟨_, ha, hvs⟩)
  | partway i _ ih =>
    apply ih henv
    intro vs hvs
    obtain ⟨a, ha, hvs⟩ := Expr.mem_literalsOfAll.1 hvs
    exact he vs (Expr.mem_literalsOfAll.2 ⟨a, List.mem_of_mem_take ha, hvs⟩)
  | argument ha _ ih =>
    exact ih henv fun vs hvs => he vs (Expr.mem_literalsOfAll.2 ⟨_, ha, hvs⟩)
  | @body env captured name args fn vs c levels m n hf hargs _ ih =>
    have hm := (hD.inherited hs limit).argsWithin_meets (n := levels) fun a ha =>
      ⟨henv, fun vs hvs => he vs (Expr.mem_literalsOfAll.2 ⟨a, ha, hvs⟩)⟩
    have hfn := henv _ (Table.mem_of_get? hf)
    cases hfn with
    | closure hbody hcap => exact ih (Discipline.AcceptsAll.bindParams hcap (hm.of_ok hargs)) hbody

theorem canonicalGrowth_run_meets (doc : Option Json) (o : Options) :
    Meets (run doc o) (fun _ => True) canonicalGrowth.Spares := by
  apply canonicalGrowth_kept.stepwise.run_meets canonicalGrowth.holds_initial
  · exact fun _ h => h
  · exact fun _ => canonicalGrowth_spares (by simp [Fault.code]) (by simp [Fault.code])
  · intro k notes _
    apply (summaries_fault notes k.state k.env).weaken
    rintro f ⟨a, rfl⟩
    exact canonicalGrowth_spares (by simp [Fault.code]) (by simp [Fault.code])

/-- If every literal of a program lists a vertex, then every complex in the store and every complex
that arises in evaluating an expression is proper, in all configurations that the program passes,
and neither the program nor any checked document meets a guard against what is not. -/
theorem passed_complexes_proper (o : Options) (cs : List Command)
    (hcs : Document.NoneEmpty (Command.literalsOfAll cs)) :
    (∀ k, Passes o Config.initial cs k →
      (∀ e ∈ k.state.store, e.2.Proper) ∧
      ∀ e c, Document.NoneEmpty e.literals → Arises o.maxCallDepth k.state k.env e c → c.Proper) ∧
    (∀ σ f τ, evaluate o cs σ = .error f τ →
      f.code ≠ some .incompatibleIdentification ∧ f.code ≠ some .emptyComplex) ∧
    (∀ doc p, Document.checkProgram doc = .accepted p →
      Document.NoneEmpty (Command.literalsOfAll p.commands)) ∧
    ∀ doc σ f τ, run doc o σ = .error f τ →
      f.code ≠ some .incompatibleIdentification ∧ f.code ≠ some .emptyComplex := by
  have hsplit : ∀ f, canonicalGrowth.Spares f →
      f.code ≠ some .incompatibleIdentification ∧ f.code ≠ some .emptyComplex :=
    fun f hf => ⟨fun h => hf _ h (Or.inl rfl), fun h => hf _ h (Or.inr rfl)⟩
  have hstep := canonicalGrowth_kept.stepwise
  refine ⟨?_, ?_, Document.checkProgram_ensures, ?_⟩
  · intro k hk
    have h := hstep.passes hk canonicalGrowth.holds_initial hcs
    refine ⟨fun e he => (h.store e he).2, ?_⟩
    intro e c he hc
    have hserves := Growth.Holds.serves canonicalGrowth_kept h
    exact (hc.complex (canonicalGrowth_lawful k.state) hserves h.env he).2
  · intro σ f τ h
    exact hsplit f ((hstep.execAll_meets o _ _ canonicalGrowth.holds_initial cs hcs).of_error h)
  · intro doc σ f τ h
    exact hsplit f ((canonicalGrowth_run_meets doc o).of_error h)

/-- Two edges glued end to end inside a block. -/
theorem passed_complexes_proper_glued :
    let glued := Expr.opCall "glue" [.complexLit ["a", "b"], .complexLit ["c", "d"]]
      (some [("b", "c")])
    let program := [Command.branch (.int (.ofInt 1)) [.complexDecl "A" glued] []]
    ∃ k c, Passes Options.default Config.initial program k ∧ k.state.store = [(.ofInt 0, c)] ∧
      c.maximal = [["a", "b"], ["b", "d"]] ∧ c.Proper := by
  intro glued program
  have hp : ∃ k c, Passes Options.default Config.initial program k ∧
      k.state.store = [(.ofInt 0, c)] ∧ c.maximal = [["a", "b"], ["b", "d"]] := by
    refine ⟨_, _, .yes (.next (σ := .empty) rfl (.start _ _)), rfl, ?_⟩
    decide +kernel
  obtain ⟨k, c, hk, hstore, hmax⟩ := hp
  have hcs : Document.NoneEmpty (Command.literalsOfAll program) := by
    intro vs hvs
    rintro rfl
    revert hvs
    decide
  have hproper := ((passed_complexes_proper Options.default program hcs).1 k hk).1
  exact ⟨k, c, hk, hstore, hmax, hproper _ (by rw [hstore]; exact List.mem_singleton.2 rfl)⟩

end SimplexScript
