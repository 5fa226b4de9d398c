import SimplexScript.Language.Apply
import SimplexScript.Proofs.Complex.Outcomes

/-!
# Outcomes of operators

An operator ends in a complex of the algebra, in an integer, or in a fault of
its own checks. So a condition on complexes and faults that the algebra keeps,
and that lets the checks pass, is kept by applying an operator.
-/

set_option autoImplicit false

namespace SimplexScript

inductive Value.Plain (good : Complex → Prop) : Value → Prop
  | complex {c : Complex} (h : good c) : Plain good (.complex c)
  | int (a : Number) : Plain good (.int a)

namespace Operator

/-- The faults of the checks are admitted, and the algebra keeps the condition on complexes. -/
structure Keeps (op : Operator) (good : Complex → Prop) (fault : Fault → Prop) : Prop where
  typeMismatch : ∀ expected actual context, fault (.typeMismatch expected actual context)
  arityMismatch : ∀ expected actual name, fault (.arityMismatch expected actual name)
  misuse : ∀ message, fault (.misuse message)
  tooLarge : ∀ size limit, fault (.simplexTooLarge size limit)
  overflow : ∀ a, fault (.integerOverflow op.name a)
  view : ∀ (n : Notes) (c : Complex), good c → good (n.view c)
  union : ∀ k l, good k → good l → Yields (k.union l) good fault
  join : ∀ k l, good k → good l → Yields (k.join l) good fault
  glue : ∀ k l m, good k → good l → Yields (k.glue l m) good fault
  pick : ∀ c order, good c → Yields (c.pick order) good fault

namespace Keeps

variable {op : Operator} {good : Complex → Prop} {fault : Fault → Prop}

theorem expectComplex_yields (h : op.Keeps good fault) (context : String) {v : Value}
    (hv : ∀ c, v = .complex c → good c) : Yields (v.expectComplex context) good fault := by
  cases v with
  | complex c => exact hv c rfl
  | _ => exact h.typeMismatch _ _ _

theorem complexes_yields (h : op.Keeps good fault) {args : List Value}
    (hargs : ∀ c, .complex c ∈ args → good c) :
    Yields (op.complexes args) (fun cs => ∀ c ∈ cs, good c) fault := by
  induction args with
  | nil => simp [complexes, Yields]
  | cons v vs ih =>
    apply (h.expectComplex_yields _ fun c hc => hargs c (by simp [hc])).bind
    intro c hc
    apply (ih fun d hd => hargs d (by simp [hd])).bind
    intro cs hcs
    exact List.forall_mem_cons.2 ⟨hc, hcs⟩

theorem numbers_yields (h : op.Keeps good fault) (args : List Value) :
    Yields (op.numbers args) (fun _ => True) fault := by
  induction args with
  | nil => trivial
  | cons v vs ih =>
    have hv : Yields (v.expectInt op.argument) (fun _ => True) fault := by
      cases v with
      | int a => trivial
      | _ => exact h.typeMismatch _ _ _
    exact hv.bind fun _ _ => ih.bind fun _ _ => trivial

theorem rejectMapping_yields (h : op.Keeps good fault) (mapping : Option Complex.Mapping) :
    Yields (op.rejectMapping mapping) (fun _ => True) fault := by
  cases mapping with
  | none => trivial
  | some m => exact h.misuse _

theorem simplices_yields (h : op.Keeps good fault) (c : Complex) :
    Yields c.simplices (fun _ => True) fault := by
  unfold Complex.simplices
  split
  · exact h.tooLarge _ _
  · trivial

theorem bettiAt_yields (h : op.Keeps good fault) (c : Complex) (k : Number) :
    Yields (Homology.bettiAt c k) (fun _ => True) fault := by
  unfold Homology.bettiAt
  split
  · unfold Homology.betti
    split
    · trivial
    · exact (h.simplices_yields c).bind fun _ _ => trivial
  · split
    · trivial
    · apply (h.simplices_yields c).bind
      intro faces _
      split <;> trivial

theorem measure_yields (h : op.Keeps good fault) (o : Observation) (c : Complex)
    (args : List Number) : Yields (o.measure c args) (fun _ => True) fault := by
  cases o with
  | dimension => trivial
  | vertexCount => trivial
  | simplexCount =>
    have hcount : Yields c.simplexCount (fun _ => True) fault :=
      (h.simplices_yields c).bind fun _ _ => trivial
    exact hcount.bind fun _ _ => trivial
  | betti => exact (h.bettiAt_yields c _).bind fun _ _ => trivial

theorem combine_yields (h : op.Keeps good fault) (f : Fold) {k l : Complex} (hk : good k)
    (hl : good l) : Yields (f.combine k l) good fault := by
  cases f with
  | union => exact h.union k l hk hl
  | join => exact h.join k l hk hl

theorem combineAll_yields (h : op.Keeps good fault) (f : Fold) {c : Complex} (hc : good c)
    {rest : List Complex} (hrest : ∀ d ∈ rest, good d) :
    Yields (f.combineAll c rest) good fault := by
  induction rest generalizing c with
  | nil => exact hc
  | cons d rest ih =>
    apply (h.combine_yields f hc (hrest d (by simp))).bind
    intro e he
    exact ih he fun x hx => hrest x (by simp [hx])

theorem apply_yields (h : op.Keeps good fault) {args : List Value}
    (hargs : ∀ c, .complex c ∈ args → good c) (mapping : Option Complex.Mapping)
    (order : Table String Number) :
    Yields (op.apply args mapping order) (Value.Plain good) fault := by
  unfold apply
  cases op.rule with
  | glue =>
    cases mapping with
    | none => exact h.misuse _
    | some m =>
      dsimp only
      split
      · apply (h.expectComplex_yields _ fun c hc => hargs c (by simp [hc])).bind
        intro k hk
        apply (h.expectComplex_yields _ fun c hc => hargs c (by simp [hc])).bind
        intro l hl
        exact (h.glue k l m hk hl).bind fun c hc => .complex hc
      · exact h.arityMismatch _ _ _
  | pick =>
    apply (h.rejectMapping_yields mapping).bind
    intro _ _
    split
    · apply (h.expectComplex_yields _ fun c hc => hargs c (by simp [hc])).bind
      intro c hc
      exact (h.pick c order hc).bind fun d hd => .complex hd
    · exact h.arityMismatch _ _ _
  | fold f =>
    apply (h.rejectMapping_yields mapping).bind
    intro _ _
    apply (h.complexes_yields hargs).bind
    intro cs hcs
    cases cs with
    | nil => exact h.arityMismatch _ _ _
    | cons c rest =>
      apply (h.combineAll_yields f (hcs c (by simp)) fun d hd => hcs d (by simp [hd])).bind
      exact fun d hd => .complex hd
  | observe o =>
    apply (h.rejectMapping_yields mapping).bind
    intro _ _
    split
    · cases args with
      | nil => exact h.arityMismatch _ _ _
      | cons a rest =>
        apply (h.expectComplex_yields _ fun c hc => hargs c (by simp [hc])).bind
        intro c _
        apply (h.numbers_yields rest).bind
        intro ks _
        exact (h.measure_yields o c ks).bind fun n _ => .int n
    · exact h.arityMismatch _ _ _
  | compute a =>
    apply (h.rejectMapping_yields mapping).bind
    intro _ _
    split
    · apply (h.numbers_yields args).bind
      intro ks _
      dsimp only
      split
      · exact .int _
      · exact h.overflow _
    · exact h.arityMismatch _ _ _

theorem perform_meets (h : op.Keeps good fault) {args : List Value}
    (hargs : ∀ c, .complex c ∈ args → good c) (mapping : Option Complex.Mapping)
    (order : Table String Number) :
    Meets (op.perform args mapping order) (Value.Plain good) fault := by
  intro n
  have hknown : ∀ c, .complex c ∈ args.map (Value.viewed n) → good c := by
    intro c hc
    obtain ⟨v, hv, hvc⟩ := List.mem_map.1 hc
    cases v with
    | complex d =>
      cases hvc
      exact h.view n d (hargs d hv)
    | _ => cases hvc
  have happly := h.apply_yields hknown mapping order
  unfold perform
  cases hr : op.apply (args.map (Value.viewed n)) mapping order with
  | ok v =>
    rw [hr] at happly
    simp only [hr]
    exact happly
  | error e =>
    rw [hr] at happly
    simp only [hr]
    exact happly

end Keeps

/-- The faults that are left to an operator: those of the algebra and of its own checks, not those
of names, addresses, limits and forms. -/
def Raises (op : Operator) : Fault → Prop
  | .integerOverflow context _ => context = op.name
  | .unboundIdentifier _ | .notAValue _ | .notAnOperator _ | .notAFunction _ | .notAVariable _
  | .uninitializedAddress _ | .tooManyRounds _ | .callsTooDeep _ | .invalidDocument _
  | .unknownForm => False
  | _ => True

theorem quotient_raises (op : Operator) (operation : String) (p : Partition String)
    (ss : List Simplex) : Yields (Complex.quotient operation p ss) (fun _ => True) op.Raises :=
  Complex.quotient_yields (fun _ _ => trivial) fun _ => trivial

theorem keeps_raises (op : Operator) : op.Keeps (fun _ => True) op.Raises where
  typeMismatch _ _ _ := trivial
  arityMismatch _ _ _ := trivial
  misuse _ := trivial
  tooLarge _ _ := trivial
  overflow _ := rfl
  view _ _ _ := trivial
  union _ _ _ _ := Complex.union_yields (fun _ _ _ => trivial) (op.quotient_raises _ _ _)
  join _ _ _ _ := op.quotient_raises _ _ _
  glue _ _ _ _ _ := by
    apply Complex.glue_yields (fun _ _ => trivial) (fun _ => trivial)
    · exact fun _ _ => Complex.checkConsistency_yields fun _ _ _ => trivial
    · exact fun _ => op.quotient_raises _ _ _
  pick _ _ _ := Complex.pick_yields (fun _ => trivial) fun _ _ => trivial

theorem perform_raises (op : Operator) (args : List Value) (mapping : Option Complex.Mapping)
    (order : Table String Number) :
    Meets (op.perform args mapping order) (Value.Plain fun _ => True) op.Raises :=
  op.keeps_raises.perform_meets (fun _ _ => trivial) mapping order

end Operator

end SimplexScript
