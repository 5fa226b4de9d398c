import SimplexScript.Language.Exec
import SimplexScript.Proofs.Language.Coupling

/-!
# Executions in tandem

One sequence of commands is executed twice, from two configurations and under
two sets of options. A relation between configurations that the single
commands keep, and that the end of a block restores, holds after each command
on both sides, as long as the second side may run for as long as the first.
-/

set_option autoImplicit false

namespace SimplexScript

namespace Command

mutual

def operators : Command → List String
  | .complexDecl _ e => e.operators
  | .vertexDecl _ => []
  | .assign _ e => e.operators
  | .branch cond yes no => cond.operators ++ operatorsOfAll yes ++ operatorsOfAll no
  | .loop cond body => cond.operators ++ operatorsOfAll body
  | .functionDecl fn => fn.body.operators
  | .unknown => []

def operatorsOfAll : List Command → List String
  | [] => []
  | c :: cs => c.operators ++ operatorsOfAll cs

end

end Command

/-- The second options leave at least the rounds and levels of the first, and more of either only if
its end is excused on the first side. -/
structure Options.Admits (excused : Fault → Prop) (o o' : Options) : Prop where
  trace : o.trace = o'.trace
  rounds : o.maxIterations.countBelow ≤ o'.maxIterations.countBelow
  tooMany : excused (.tooManyRounds o.maxIterations) ∨ o.maxIterations = o'.maxIterations
  levels : o.maxCallDepth.countBelow ≤ o'.maxCallDepth.countBelow
  tooDeep : excused (.callsTooDeep o.maxCallDepth) ∨ o.maxCallDepth = o'.maxCallDepth

theorem Options.Admits.refl (excused : Fault → Prop) (o : Options) : o.Admits excused o where
  trace := rfl
  rounds := Nat.le_refl _
  tooMany := .inr rfl
  levels := Nat.le_refl _
  tooDeep := .inr rfl

theorem repeatWhile_eq (limit : Number) (cond : State → Noted Bool) (body : State → Traced State)
    (rounds : Nat) (s : State) : repeatWhile limit cond body rounds s =
      Traced.silent (cond s) >>= fun again => if again then
        match rounds with
        | 0 => throw (.tooManyRounds limit)
        | rest + 1 => body s >>= repeatWhile limit cond body rest
      else pure s := by
  cases rounds <;> rfl

namespace Coupling

variable {C : Coupling} {s s' : State} {o o' : Options} {env env' : Environment} {e : Expr}

theorem evalComplex_follows (hC : C.Lawful s s') (ho : o.Admits C.excused o')
    (hn : ∀ x ∈ e.names, C.Sees env env' x) (hop : ∀ op ∈ e.operators, C.applied op)
    (context : String) : Follows C.SameNotes C.excused (fun c d => c = d)
      (evalComplex o env s e context) (evalComplex o' env' s' e context) := by
  apply (eval_follows hC ho.levels ho.tooDeep hn hop).bind
  intro v v' hv
  have houtline : v.expectComplex context = v'.expectComplex context := by
    rw [← v.expectComplex_outline, ← v'.expectComplex_outline, hC.outline hv]
  rw [houtline]
  exact .lift (.refl _ _)

theorem evalCondition_follows (hC : C.Lawful s s') (ho : o.Admits C.excused o')
    (hn : ∀ x ∈ e.names, C.Sees env env' x) (hop : ∀ op ∈ e.operators, C.applied op) :
    Follows C.SameNotes C.excused (fun a b => a = b) (evalCondition o env e s)
      (evalCondition o' env' e s') := by
  apply (eval_follows hC ho.levels ho.tooDeep hn hop).bind
  intro v v' hv
  have houtline : v.expectInt "condition" = v'.expectInt "condition" := by
    rw [← v.expectInt_outline, ← v'.expectInt_outline, hC.outline hv]
  rw [houtline]
  apply Follows.bind (.lift (.refl _ _))
  rintro a b rfl
  exact .pure rfl

end Coupling

/-- A relation between configurations that commands keep, if their operators are as asked for. -/
structure Tandem (o o' : Options) (applied : String → Prop) (I : Config → Config → Prop)
    (N : Notes → Notes → Prop) (L : Array String → Array String → Prop)
    (excused : Fault → Prop) : Prop where
  options : o.Admits excused o'
  line : ∀ l l' text, L l l' → L (l.push text) (l'.push text)
  condition : ∀ env s env' s' e, I ⟨env, s⟩ ⟨env', s'⟩ → (∀ op ∈ e.operators, applied op) →
    Follows N excused (fun a b => a = b) (evalCondition o env e s) (evalCondition o' env' e s')
  complexDecl : ∀ env s env' s' name e, I ⟨env, s⟩ ⟨env', s'⟩ →
    (∀ op ∈ e.operators, applied op) →
    Follows N excused I (declareComplex o env s name e) (declareComplex o' env' s' name e)
  vertexDecl : ∀ env s env' s' name, I ⟨env, s⟩ ⟨env', s'⟩ →
    Echoes excused I (declareVertex env s name) (declareVertex env' s' name)
  assign : ∀ env s env' s' name e, I ⟨env, s⟩ ⟨env', s'⟩ → (∀ op ∈ e.operators, applied op) →
    Follows N excused I (assignComplex o env s name e) (assignComplex o' env' s' name e)
  functionDecl : ∀ env s env' s' fn, I ⟨env, s⟩ ⟨env', s'⟩ →
    (∀ op ∈ fn.body.operators, applied op) →
    I ⟨Table.set env fn.name (.closure fn env), s⟩ ⟨Table.set env' fn.name (.closure fn env'), s'⟩
  block : ∀ env s env' s' k k', I ⟨env, s⟩ ⟨env', s'⟩ → I k k' →
    I ⟨env, k.state.rollback s.nextLoc⟩ ⟨env', k'.state.rollback s'.nextLoc⟩

namespace Tandem

variable {o o' : Options} {applied : String → Prop} {I : Config → Config → Prop}
  {N : Notes → Notes → Prop} {L : Array String → Array String → Prop} {excused : Fault → Prop}

theorem announce_follows (hI : Tandem o o' applied I N L excused) (c : Command) :
    Follows (Session.Paired N L) excused (fun _ _ => True) (announce o c) (announce o' c) := by
  have hlogged : Follows (Session.Paired N L) excused (fun _ _ => True)
      (if o.trace then Traced.line ("[Evaluator] " ++ c.describe) else pure ())
      (if o'.trace then Traced.line ("[Evaluator] " ++ c.describe) else pure ()) := by
    rw [hI.options.trace]
    split
    · exact fun s t hs => .ok trivial ⟨hs.1, hI.line _ _ _ hs.2⟩
    · exact .pure trivial
  cases c with
  | unknown => exact .throw _
  | _ => exact hlogged

theorem repeatWhile_follows {env env' : Environment} {limit limit' : Number}
    {cond cond' : State → Noted Bool} {body body' : State → Traced State}
    (hcond : ∀ s s', I ⟨env, s⟩ ⟨env', s'⟩ →
      Follows N excused (fun a b => a = b) (cond s) (cond' s'))
    (hbody : ∀ s s', I ⟨env, s⟩ ⟨env', s'⟩ → Follows (Session.Paired N L) excused
      (fun t t' => I ⟨env, t⟩ ⟨env', t'⟩) (body s) (body' s'))
    {rounds rounds' : Nat} (hle : rounds ≤ rounds')
    (hlimit : excused (.tooManyRounds limit) ∨ limit = limit' ∧ rounds = rounds') {s s' : State}
    (hs : I ⟨env, s⟩ ⟨env', s'⟩) :
    Follows (Session.Paired N L) excused (fun t t' => I ⟨env, t⟩ ⟨env', t'⟩)
      (repeatWhile limit cond body rounds s) (repeatWhile limit' cond' body' rounds' s') := by
  induction rounds generalizing rounds' s s' with
  | zero =>
    rw [repeatWhile_eq, repeatWhile_eq]
    apply (Follows.silent (hcond s s' hs)).bind
    rintro again _ rfl
    cases again with
    | true =>
      -- the second side has no round left either, or need not be followed
      rcases hlimit with he | ⟨rfl, rfl⟩
      · exact .excuse he _
      · exact .throw _
    | false => exact .pure hs
  | succ rounds ih =>
    obtain ⟨rest, rfl⟩ : ∃ rest, rounds' = rest + 1 := ⟨rounds' - 1, by omega⟩
    apply (Follows.silent (hcond s s' hs)).bind
    rintro again _ rfl
    cases again with
    | true =>
      apply (hbody s s' hs).bind
      intro t t' ht
      exact ih (by omega) (hlimit.imp_right fun h => ⟨h.1, by omega⟩) ht
    | false => exact .pure hs

mutual

theorem exec_follows (hI : Tandem o o' applied I N L excused) {env env' : Environment}
    {s s' : State} (hk : I ⟨env, s⟩ ⟨env', s'⟩) : ∀ c : Command, (∀ op ∈ c.operators, applied op) →
      Follows (Session.Paired N L) excused I (exec o env s c) (exec o' env' s' c)
  | .complexDecl name e, hc => by
    rw [exec, exec]
    apply (hI.announce_follows _).bind
    exact fun _ _ _ => .silent (hI.complexDecl env s env' s' name e hk hc)
  | .vertexDecl name, _ => by
    rw [exec, exec]
    apply (hI.announce_follows _).bind
    exact fun _ _ _ => .lift (hI.vertexDecl env s env' s' name hk)
  | .assign name e, hc => by
    rw [exec, exec]
    apply (hI.announce_follows _).bind
    exact fun _ _ _ => .silent (hI.assign env s env' s' name e hk hc)
  | .branch cond yes no, hc => by
    simp only [Command.operators, List.mem_append] at hc
    rw [exec, exec]
    apply (hI.announce_follows _).bind
    intro _ _ _
    have hcond := hI.condition env s env' s' cond hk fun op h => hc op (.inl (.inl h))
    apply (Follows.silent hcond).bind
    rintro holds _ rfl
    split
    · apply (execAll_follows hI hk yes fun op h => hc op (.inl (.inr h))).bind
      exact fun k k' h => .pure (hI.block env s env' s' k k' hk h)
    · apply (execAll_follows hI hk no fun op h => hc op (.inr h)).bind
      exact fun k k' h => .pure (hI.block env s env' s' k k' hk h)
  | .loop cond body, hc => by
    simp only [Command.operators, List.mem_append] at hc
    rw [exec, exec]
    apply (hI.announce_follows _).bind
    intro _ _ _
    have hcond : ∀ t t', I ⟨env, t⟩ ⟨env', t'⟩ → Follows N excused (fun a b => a = b)
        (evalCondition o env cond t) (evalCondition o' env' cond t') :=
      fun t t' ht => hI.condition env t env' t' cond ht fun op h => hc op (.inl h)
    have hround : ∀ t t', I ⟨env, t⟩ ⟨env', t'⟩ → Follows (Session.Paired N L) excused
        (fun u u' => I ⟨env, u⟩ ⟨env', u'⟩)
        (execAll o env t body >>= fun k => pure (k.state.rollback t.nextLoc))
        (execAll o' env' t' body >>= fun k => pure (k.state.rollback t'.nextLoc)) := by
      intro t t' ht
      apply (execAll_follows hI ht body fun op h => hc op (.inr h)).bind
      exact fun k k' h => .pure (hI.block env t env' t' k k' ht h)
    apply (repeatWhile_follows hcond hround hI.options.rounds
      (hI.options.tooMany.imp_right fun h => ⟨h, by rw [h]⟩) hk).bind
    exact fun t t' ht => .pure ht
  | .functionDecl fn, hc => by
    rw [exec, exec]
    apply (hI.announce_follows _).bind
    exact fun _ _ _ => .pure (hI.functionDecl env s env' s' fn hk hc)
  | .unknown, _ => by
    rw [exec, exec]
    exact (hI.announce_follows _).bind fun _ _ _ => .throw _

theorem execAll_follows (hI : Tandem o o' applied I N L excused) {env env' : Environment}
    {s s' : State} (hk : I ⟨env, s⟩ ⟨env', s'⟩) : ∀ cs : List Command,
      (∀ op ∈ Command.operatorsOfAll cs, applied op) →
      Follows (Session.Paired N L) excused I (execAll o env s cs) (execAll o' env' s' cs)
  | [], _ => by
    rw [execAll, execAll]
    exact .pure hk
  | c :: cs, hc => by
    simp only [Command.operatorsOfAll, List.mem_append] at hc
    rw [execAll, execAll]
    apply (exec_follows hI hk c fun op h => hc op (.inl h)).bind
    exact fun k k' h => execAll_follows hI h cs fun op h => hc op (.inr h)

end

end Tandem

end SimplexScript
