import SimplexScript.Proofs.Document.Programs

/-!
# Runs of documents

A checked program is formed, so every vertex list that is written in it has a
vertex, in the blocks of its commands and in its function bodies too. An
invariant of execution that asks no more of literals holds of runs.
-/

set_option autoImplicit false

namespace SimplexScript

namespace Document

def NoneEmpty (lists : List (List String)) : Prop := ∀ vs ∈ lists, vs ≠ []

theorem noneEmpty_nil : NoneEmpty [] := by
  intro vs hvs
  cases hvs

theorem NoneEmpty.append {xs ys : List (List String)} (hx : NoneEmpty xs) (hy : NoneEmpty ys) :
    NoneEmpty (xs ++ ys) := by
  intro vs hvs
  rcases List.mem_append.1 hvs with h | h
  · exact hx vs h
  · exact hy vs h

mutual

theorem noneEmpty_literals : ∀ e : Expr, e.Formed → NoneEmpty e.literals
  | .complexLit _, h => List.forall_mem_singleton.2 h.1
  | .opCall _ args _, h => noneEmpty_literalsOfAll args h.2.1
  | .funCall _ args, h => noneEmpty_literalsOfAll args h.2
  | .ident _, _ | .int _, _ | .unknown, _ => noneEmpty_nil

theorem noneEmpty_literalsOfAll : ∀ es : List Expr, Expr.FormedAll es →
    NoneEmpty (Expr.literalsOfAll es)
  | [], _ => noneEmpty_nil
  | e :: es, h => (noneEmpty_literals e h.1).append (noneEmpty_literalsOfAll es h.2)

end

mutual

theorem noneEmpty_commandLiterals : ∀ c : Command, c.Formed → NoneEmpty c.literals
  | .complexDecl _ e, h => noneEmpty_literals e h.2
  | .assign _ e, h => noneEmpty_literals e h.2
  | .branch cond yes no, h =>
    ((noneEmpty_literals cond h.1).append (noneEmpty_commandLiteralsOfAll yes h.2.1)).append
      (noneEmpty_commandLiteralsOfAll no h.2.2)
  | .loop cond body, h =>
    (noneEmpty_literals cond h.1).append (noneEmpty_commandLiteralsOfAll body h.2)
  | .functionDecl fn, h => noneEmpty_literals fn.body h.2.2
  | .vertexDecl _, _ | .unknown, _ => noneEmpty_nil

theorem noneEmpty_commandLiteralsOfAll : ∀ cs : List Command, Command.FormedAll cs →
    NoneEmpty (Command.literalsOfAll cs)
  | [], _ => noneEmpty_nil
  | c :: cs, h => (noneEmpty_commandLiterals c h.1).append (noneEmpty_commandLiteralsOfAll cs h.2)

end

theorem checkProgram_ensures (doc : Option Json) :
    (checkProgram doc).Ensures fun p => NoneEmpty (Command.literalsOfAll p.commands) := by
  intro p hp
  cases doc with
  | none => cases hp
  | some v =>
    obtain ⟨-, hformed, -⟩ := checkProgram_reads v p hp
    exact noneEmpty_commandLiteralsOfAll p.commands hformed.2

end Document

theorem summaries_fault (n : Notes) (s : State) (env : Environment) :
    Yields (summaries n s env) (fun _ => True) (fun f => ∃ a, f = .uninitializedAddress a) := by
  induction env with
  | nil => trivial
  | cons e rest ih =>
    obtain ⟨name, v⟩ := e
    cases v with
    | loc a =>
      exact (s.access_yields a ⟨a, rfl⟩).bind fun _ _ => ih.bind fun _ _ => trivial
    | _ => exact ih

/-- A run of a document meets what executing its commands meets, if summing up does too. -/
theorem run_meets {P : Config → Prop} {fault : Fault → Prop} (doc : Option Json) (o : Options)
    (hdoc : ∀ issues, fault (.invalidDocument issues))
    (hexec : ∀ p, Document.checkProgram doc = .accepted p → Meets (evaluate o p.commands) P fault)
    (hsum : ∀ k n, P k → Yields (summaries n k.state k.env) (fun _ => True) fault) :
    Meets (run doc o) (fun _ => True) fault := by
  unfold run
  split
  · exact .throw (hdoc _)
  next program hp =>
    apply (hexec program hp).bind
    intro k hk
    apply Meets.bind (P := fun _ => True) (fun _ => trivial)
    intro session _
    apply Meets.lift
    have hk' := hsum k session.notes hk
    unfold collect
    cases hr : summaries session.notes k.state k.env with
    | ok t => trivial
    | error f =>
      rw [hr] at hk'
      exact hk'

theorem Stepwise.run_meets {literal : List String → Prop} {I : Config → Prop}
    {R : State → State → Prop} {fault : Fault → Prop} (hI : Stepwise literal I R fault)
    (hinit : I Config.initial) (hlit : ∀ vs, vs ≠ [] → literal vs)
    (hdoc : ∀ issues, fault (.invalidDocument issues))
    (hsum : ∀ k n, I k → Yields (summaries n k.state k.env) (fun _ => True) fault)
    (doc : Option Json) (o : Options) : Meets (run doc o) (fun _ => True) fault := by
  apply SimplexScript.run_meets doc o hdoc _ hsum
  intro program hp
  have hcs := Document.checkProgram_ensures doc program hp
  have hexec := hI.execAll_meets o _ _ hinit program.commands fun vs hvs => hlit vs (hcs vs hvs)
  exact hexec.mono fun _ hk => hk.1

end SimplexScript
