import Mathlib.Algebra.Order.Ring.Rat
import SimplexScript.Language.Exec
import SimplexScript.Proofs.Language.Tandem
import SimplexScript.Proofs.Number.Counting

/-!
# Raising the limits

The limits on rounds and on the depth of calls only ever end a run with a
fault of their own. A run that ends otherwise goes step by step as it would
under higher limits, so it ends in the same way there.
-/

set_option autoImplicit false

namespace SimplexScript

theorem Number.countBelow_mono {a b : Number} (h : a.le b = true) :
    a.countBelow ≤ b.countBelow := by
  simp only [le, Bool.or_eq_true, Bool.and_eq_true, decide_eq_true_eq] at h
  rcases h with h | ⟨rfl, -⟩
  · cases a with
    | finite q =>
      cases b with
      | finite r =>
        have hlt : q < r := of_decide_eq_true h
        by_cases hr : r ≤ Rat.ofInt (Nat.pow 2 53 : Nat)
        · have hceil : q.ceil ≤ r.ceil := Rat.ceil_le_iff.2 (hlt.le.trans Rat.le_ceil)
          rw [countBelow, countBelow, if_pos hr, if_pos (hlt.le.trans hr)]
          exact Int.toNat_le_toNat hceil
        · have hunmet : (finite r).countBelow = (infinite false).countBelow := if_neg hr
          rw [hunmet]
          exact countBelow_le_infinite _
      | infinite negative =>
        cases negative with
        | true => cases h
        | false => exact countBelow_le_infinite _
      | nan => cases h
    | infinite negative =>
      cases negative with
      | true => exact Nat.zero_le _
      | false => cases b <;> cases h
    | nan => cases h
  · exact Nat.le_refl _

/-- Both sides hold the very same values, and only running into a limit is excused. -/
def Coupling.identical : Coupling where
  bound _ v v' := v = v'
  address a a' := a = a'
  applied _ := True
  picks := True
  notes _ := True
  excused f := f.code = some .nonTermination

theorem Coupling.identical_sees (env : Environment) (x : String) :
    Coupling.identical.Sees env env x := by
  unfold Coupling.Sees
  cases Table.get? env x with
  | none => exact .none
  | some v => exact .some rfl

theorem Coupling.identical_lawful (s : State) : Coupling.identical.Lawful s s where
  alike := by
    rintro x v _ rfl
    cases v with
    | complex c => exact .complex c
    | int a => exact .int a
    | closure fn env => exact .closure (fun _ _ => trivial) (Coupling.identical_sees env)
    | loc a => exact .loc rfl
    | vertex v => exact .vertex v
    | operator op => exact .operator fun _ _ => trivial
  complex _ _ := rfl
  int _ _ := rfl
  closure _ _ _ _ _ _ h := h
  access := by
    rintro a _ rfl
    exact .refl _ _
  order _ := rfl
  learn _ _ _ _ _ := trivial

structure Options.Raised (o o' : Options) : Prop where
  trace : o.trace = o'.trace
  iterations : o.maxIterations.le o'.maxIterations = true
  callDepth : o.maxCallDepth.le o'.maxCallDepth = true

theorem Options.Raised.admits {o o' : Options} (h : o.Raised o') :
    o.Admits Coupling.identical.excused o' where
  trace := h.trace
  rounds := Number.countBelow_mono h.iterations
  tooMany := .inl rfl
  levels := Number.countBelow_mono h.callDepth
  tooDeep := .inl rfl

theorem Options.Raised.evalComplex_follows {o o' : Options} (h : o.Raised o') (env : Environment)
    (s : State) (e : Expr) (context : String) :
    Follows Coupling.identical.SameNotes Coupling.identical.excused (fun c d => c = d)
      (evalComplex o env s e context) (evalComplex o' env s e context) :=
  Coupling.evalComplex_follows (Coupling.identical_lawful s) h.admits
    (fun x _ => Coupling.identical_sees env x) (fun _ _ => trivial) context

theorem Options.Raised.tandem {o o' : Options} (h : o.Raised o') :
    Tandem o o' (fun _ => True) (fun k k' => k = k') Coupling.identical.SameNotes
      (fun l l' => l = l') Coupling.identical.excused where
  options := h.admits
  line l l' text hl := by rw [hl]
  condition := by
    rintro env s _ _ e ⟨⟩ -
    exact Coupling.evalCondition_follows (Coupling.identical_lawful s) h.admits
      (fun x _ => Coupling.identical_sees env x) fun _ _ => trivial
  complexDecl := by
    rintro env s _ _ name e ⟨⟩ -
    apply (h.evalComplex_follows env s e _).bind
    rintro c _ rfl
    exact .pure rfl
  vertexDecl := by
    rintro env s _ _ name ⟨⟩
    exact .refl _ _
  assign := by
    rintro env s _ _ name e ⟨⟩ -
    apply Follows.bind (.lift (.refl _ _))
    rintro v _ rfl
    cases v with
    | loc a =>
      apply (h.evalComplex_follows env s e _).bind
      rintro c _ rfl
      apply Follows.bind (.lift (.refl _ _))
      rintro t _ rfl
      exact .pure rfl
    | _ => exact .throw _
  functionDecl := by
    rintro env s _ _ fn ⟨⟩ -
    rfl
  block := by
    rintro env s _ _ k _ ⟨⟩ rfl
    rfl

theorem paired_identical {σ τ : Session} :
    Session.Paired Coupling.identical.SameNotes (fun l l' => l = l') σ τ ↔ σ = τ := by
  constructor
  · rintro ⟨⟨hn, -⟩, hl⟩
    cases σ
    cases τ
    simp_all
  · rintro rfl
    exact ⟨⟨rfl, trivial⟩, rfl⟩

theorem Options.Raised.run_follows {o o' : Options} (h : o.Raised o') (doc : Option Json) :
    Follows (Session.Paired Coupling.identical.SameNotes fun l l' => l = l')
      Coupling.identical.excused (fun t t' => t = t') (run doc o) (run doc o') := by
  unfold run
  cases Document.checkProgram doc with
  | rejected issues => exact .throw _
  | accepted program =>
    apply (h.tandem.execAll_follows rfl program.commands fun _ _ => trivial).bind
    rintro k _ rfl
    intro σ τ hσ
    obtain rfl := paired_identical.1 hσ
    exact Follows.lift (.refl _ _) σ σ hσ

/-- Under higher limits a run that does not run into a limit ends with the same result or the same
fault, and leaves the same session. -/
theorem run_of_raised_limits (doc : Option Json) {o o' : Options} (h : o.Raised o') (σ : Session) :
    (∀ complexes τ, run doc o σ = .ok complexes τ → run doc o' σ = .ok complexes τ) ∧
    ∀ f τ, run doc o σ = .error f τ → f.code ≠ some .nonTermination →
      run doc o' σ = .error f τ := by
  have hrun := h.run_follows doc
  have hσ := paired_identical.2 (rfl : σ = σ)
  constructor
  · intro complexes τ hx
    obtain ⟨_, _, hy, rfl, hτ⟩ := hrun.of_ok hσ hx
    rw [hy, paired_identical.1 hτ]
  · intro f τ hx hf
    obtain ⟨_, hy, hτ⟩ := hrun.of_error hσ hx hf
    rw [hy, paired_identical.1 hτ]

/-- A loop of one round around a call, under the least limits that let it end. -/
theorem run_of_raised_limits_loop :
    let name (x : String) := Json.object [("kind", .text "ident"), ("name", .text x)]
    let point (v : String) := Json.object [("kind", .text "complexLit"), ("vertices", .texts [v])]
    let apply (op : String) (args : List Json) := Json.object
      [("kind", .text "opCall"), ("op", .text op), ("args", .array args)]
    let doc := Json.object [("version", .text "1.0.0"), ("commands", .array [
      .object [("kind", .text "complexDecl"), ("name", .text "A"), ("expr", point "a")],
      .object [("kind", .text "functionDecl"), ("name", .text "f"), ("params", .texts ["x"]),
        ("body", apply "union" [name "x", point "b"])],
      .object [("kind", .text "while"),
        ("cond", apply "less" [apply "num_vert" [name "A"],
          .object [("kind", .text "int"), ("value", .ofInt 2)]]),
        ("body", .array [.object [("kind", .text "assign"), ("name", .text "A"),
          ("expr", .object [("kind", .text "funCall"), ("name", .text "f"),
            ("args", .array [name "A"])])]])]])]
    let o : Options := ⟨.ofInt 1, .ofInt 1, false⟩
    let o' : Options := ⟨.ofInt 2, .infinite false, false⟩
    o.Raised o' ∧ ∃ complexes τ, run (some doc) o .empty = .ok complexes τ ∧
      run (some doc) o' .empty = .ok complexes τ := by
  intro name point apply doc o o'
  have hraised : o.Raised o' := ⟨rfl, rfl, rfl⟩
  have hok : (match run (some doc) o .empty with
    | .ok _ _ => true
    | .error _ _ => false) = true := by decide +kernel
  clear_value doc
  cases hrun : run (some doc) o .empty with
  | error f τ =>
    rw [hrun] at hok
    cases hok
  | ok complexes τ =>
    exact ⟨hraised, complexes, τ, rfl,
      (run_of_raised_limits (some doc) hraised .empty).1 _ _ hrun⟩

end SimplexScript
