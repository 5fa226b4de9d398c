import SimplexScript.Language.Exec
import SimplexScript.Proofs.Language.Discipline

/-!
# Invariants of execution

`Passes` lists the configurations that a sequence of commands goes through,
those inside blocks and between the rounds of a loop too. What is asked of a
configuration may depend on the commands that are left to it in its block. If
the single commands keep it, and the end of a block restores it, then it holds
in all of them. The relation between states says what a block may do to the
state in which it started, since that is all that is left of it at its end.
-/

set_option autoImplicit false

namespace SimplexScript

mutual

def Command.literals : Command → List (List String)
  | .complexDecl _ e => e.literals
  | .vertexDecl _ => []
  | .assign _ e => e.literals
  | .branch cond yes no => cond.literals ++ literalsOfAll yes ++ literalsOfAll no
  | .loop cond body => cond.literals ++ literalsOfAll body
  | .functionDecl fn => fn.body.literals
  | .unknown => []

def Command.literalsOfAll : List Command → List (List String)
  | [] => []
  | c :: cs => c.literals ++ literalsOfAll cs

end

/-- The configurations that commands pass when they are executed from one of them. A block starts
where its command stands, and a round of a loop where the round before it ended. Conditions are left
open: what holds of every configuration passed so holds of those that a run really passes. -/
inductive Passes (o : Options) : Config → List Command → Config → Prop
  | start (k : Config) (cs : List Command) : Passes o k cs k
  | next {k k' l : Config} {c : Command} {cs : List Command} {σ τ : Session}
      (hc : exec o k.env k.state c σ = .ok k' τ) (h : Passes o k' cs l) : Passes o k (c :: cs) l
  | yes {k l : Config} {cond : Expr} {yes no cs : List Command} (h : Passes o k yes l) :
      Passes o k (.branch cond yes no :: cs) l
  | no {k l : Config} {cond : Expr} {yes no cs : List Command} (h : Passes o k no l) :
      Passes o k (.branch cond yes no :: cs) l
  | body {k l : Config} {cond : Expr} {body cs : List Command} (h : Passes o k body l) :
      Passes o k (.loop cond body :: cs) l
  | round {k k' l : Config} {cond : Expr} {body cs : List Command} {σ τ : Session}
      (hb : execAll o k.env k.state body σ = .ok k' τ)
      (h : Passes o ⟨k.env, k'.state.rollback k.state.nextLoc⟩ (.loop cond body :: cs) l) :
      Passes o k (.loop cond body :: cs) l

theorem Passes.of_execAll {o : Options} {k l : Config} {cs : List Command} {σ τ : Session}
    (h : execAll o k.env k.state cs σ = .ok l τ) : Passes o k cs l := by
  induction cs generalizing k σ with
  | nil =>
    rw [execAll] at h
    cases h
    exact .start _ _
  | cons c cs ih =>
    rw [execAll] at h
    obtain ⟨k', υ, hc, hrest⟩ := bind_eq_ok.1 h
    exact .next hc (ih hrest)

/-- What every round keeps is kept by a loop. -/
theorem Meets.repeatWhile {P : State → Prop} {fault : Fault → Prop} {limit : Number}
    {cond : State → Noted Bool} {body : State → Traced State}
    (hlimit : fault (.tooManyRounds limit))
    (hcond : ∀ s, P s → Meets (cond s) (fun _ => True) fault)
    (hbody : ∀ s, P s → Meets (body s) P fault) (rounds : Nat) (s : State) (hs : P s) :
    Meets (repeatWhile limit cond body rounds s) P fault := by
  induction rounds generalizing s with
  | zero =>
    apply (Meets.silent (hcond s hs)).bind
    intro again _
    cases again with
    | true => exact .throw hlimit
    | false => exact .pure hs
  | succ rounds ih =>
    apply (Meets.silent (hcond s hs)).bind
    intro again _
    cases again with
    | true => exact (hbody s hs).bind fun t ht => ih t ht
    | false => exact .pure hs

def Command.condition? : Command → Option Expr
  | .branch cond _ _ => some cond
  | .loop cond _ => some cond
  | _ => none

def Command.blocks : Command → List (List Command)
  | .branch _ yes no => [yes, no]
  | .loop _ body => [body]
  | _ => []

theorem State.rollback_nextLoc (s : State) (mark : Number) : (s.rollback mark).nextLoc = mark := by
  unfold rollback
  split <;> rfl

theorem State.update_yields (s : State) (a : Number) (c : Complex) {fault : Fault → Prop}
    (h : fault (.uninitializedAddress a)) :
    Yields (s.update a c) (fun t => t = { s with store := Table.set s.store a c }) fault := by
  unfold update
  split
  · rfl
  · exact h

theorem State.firstFree_free {taken : Number → Bool} {n : Nat} {a id : Number}
    (h : firstFree taken n a = some id) : taken id = false := by
  induction n generalizing a with
  | zero => cases h
  | succ n ih =>
    rw [firstFree] at h
    split at h
    · exact ih h
    next ha =>
      obtain rfl := Option.some.inj h
      exact Bool.eq_false_iff.2 ha

theorem State.exists_of_fresh {s t : State} {v : String} (h : s.fresh = .ok (v, t)) :
    ∃ id, v = numberName id ∧ numberName id ∉ Table.keys s.vertexOrder ∧
      t = declare { s with freshVertexId := id.add (.ofInt 1) } [v] := by
  unfold fresh at h
  dsimp only at h
  split at h
  next id hid =>
    cases h
    refine ⟨id, rfl, ?_, rfl⟩
    rw [← Table.contains_iff, firstFree_free hid]
    exact Bool.false_ne_true
  next => cases h

theorem declareVertex_yields {env : Environment} {s : State} {name : String}
    {good : Config → Prop} {fault : Fault → Prop}
    (h : ∀ v t, s.fresh = .ok (v, t) → good ⟨Table.set env name (.vertex v), t⟩)
    (hend : fault .unending) : Yields (declareVertex env s name) good fault := by
  have hfresh : Yields s.fresh (fun e => s.fresh = .ok e) fault := by
    unfold State.fresh
    dsimp only
    split
    · rfl
    · exact hend
  exact hfresh.bind fun e he => h e.1 e.2 he

theorem exists_of_declareVertex {env : Environment} {s : State} {name : String} {k : Config}
    (h : declareVertex env s name = .ok k) :
    ∃ v t, s.fresh = .ok (v, t) ∧ k = ⟨Table.set env name (.vertex v), t⟩ := by
  have hyields : Yields (declareVertex env s name)
      (fun l => ∃ v t, s.fresh = .ok (v, t) ∧ l = ⟨Table.set env name (.vertex v), t⟩)
      (fun _ => True) := declareVertex_yields (fun v t ht => ⟨v, t, ht, rfl⟩) trivial
  rwa [h] at hyields

section Single

variable {o : Options} {env : Environment} {s : State} {e : Expr} {P : Value → Prop}
  {fault : Fault → Prop}

theorem evalComplex_meets (he : Meets (eval o.maxCallDepth env s e) P fault) (context : String)
    (h : ∀ expected actual context, fault (.typeMismatch expected actual context)) :
    Meets (evalComplex o env s e context) (fun _ => True) fault :=
  he.bind fun v _ => .lift (v.expectComplex_yields context fun _ _ => h _ _ _)

theorem evalCondition_meets (he : Meets (eval o.maxCallDepth env s e) P fault)
    (h : ∀ expected actual context, fault (.typeMismatch expected actual context)) :
    Meets (evalCondition o env e s) (fun _ => True) fault := by
  apply he.bind
  intro v _
  apply (Meets.lift (v.expectInt_yields "condition" fun _ _ => h _ _ _)).bind
  exact fun _ _ => .pure trivial

theorem declareComplex_meets (name : String)
    (he : ∀ context, Meets (evalComplex o env s e context) (fun _ => True) fault) :
    Meets (declareComplex o env s name e) (fun k => ∃ a, k.env = Table.set env name (.loc a))
      fault :=
  (he _).bind fun _ _ => .pure ⟨_, rfl⟩

theorem assignComplex_meets (name : String)
    (he : ∀ context, Meets (evalComplex o env s e context) (fun _ => True) fault)
    (hunbound : fault (.unboundIdentifier name)) (hvariable : fault (.notAVariable name))
    (haddress : ∀ a, fault (.uninitializedAddress a)) :
    Meets (assignComplex o env s name e) (fun k => k.env = env) fault := by
  apply Meets.bind (.lift (env.lookup_yields name hunbound))
  intro v _
  cases v with
  | loc a =>
    apply (he _).bind
    intro c _
    exact (Meets.lift (s.update_yields a c (haddress a))).bind fun _ _ => .pure rfl
  | _ => exact .throw hvariable

end Single

theorem exec_block_meets (o : Options) (env : Environment) (s : State) {c : Command}
    (hc : c.blocks ≠ []) : Meets (exec o env s c)
      (fun l => l.env = env ∧ l.state.nextLoc = s.nextLoc) (fun _ => True) := by
  cases c with
  | branch cond yes no =>
    rw [exec]
    apply (Meets.any _).bind
    intro _ _
    apply (Meets.any _).bind
    intro holds _
    split
    · exact (Meets.any _).bind fun _ _ => .pure ⟨rfl, State.rollback_nextLoc _ _⟩
    · exact (Meets.any _).bind fun _ _ => .pure ⟨rfl, State.rollback_nextLoc _ _⟩
  | loop cond body =>
    rw [exec]
    apply (Meets.any _).bind
    intro _ _
    have hloop : Meets (repeatWhile o.maxIterations (evalCondition o env cond) (fun t =>
        execAll o env t body >>= fun k => pure (k.state.rollback t.nextLoc))
        o.maxIterations.countBelow s) (fun t => t.nextLoc = s.nextLoc) (fun _ => True) := by
      apply Meets.repeatWhile (P := fun t => t.nextLoc = s.nextLoc) trivial
        (fun _ _ => Meets.any _) _ _ s rfl
      intro t ht
      exact (Meets.any _).bind fun k _ => .pure ((State.rollback_nextLoc _ _).trans ht)
    exact hloop.bind fun t ht => .pure ⟨rfl, ht⟩
  | _ => exact absurd rfl hc

mutual

/-- A command with the commands inside its blocks, at any depth. -/
def Command.parts : Command → List Command
  | .branch cond yes no => .branch cond yes no :: (partsOfAll yes ++ partsOfAll no)
  | .loop cond body => .loop cond body :: partsOfAll body
  | c => [c]

def Command.partsOfAll : List Command → List Command
  | [] => []
  | c :: cs => c.parts ++ partsOfAll cs

end

theorem Command.mem_partsOfAll_self (c : Command) (cs : List Command) :
    c ∈ partsOfAll (c :: cs) := by
  cases c <;> simp [partsOfAll, parts]

theorem Command.partsOfAll_rest_sublist (c : Command) (cs : List Command) :
    (partsOfAll cs).Sublist (partsOfAll (c :: cs)) := by
  rw [partsOfAll.eq_def (c :: cs)]
  exact List.sublist_append_right _ _

theorem Command.partsOfAll_block_sublist {c : Command} {block : List Command}
    (hb : block ∈ c.blocks) (cs : List Command) :
    (partsOfAll block).Sublist (partsOfAll (c :: cs)) := by
  have hparts : (partsOfAll block).Sublist c.parts := by
    cases c with
    | branch cond yes no =>
      simp only [blocks, List.mem_cons, List.not_mem_nil, or_false] at hb
      rcases hb with rfl | rfl
      · exact (List.sublist_append_left _ _).cons _
      · exact (List.sublist_append_right _ _).cons _
    | loop cond body =>
      obtain rfl := List.mem_singleton.1 hb
      exact List.sublist_cons_self _ _
    | _ => cases hb
  rw [partsOfAll.eq_def (c :: cs)]
  exact hparts.trans (List.sublist_append_left _ _)

/-- What is asked of a configuration by the commands that are left to it is kept by the first of
them, with a relation between the states before and after, and a condition on the faults met. A block
starts fit for its own commands, and its end restores what held before it. -/
structure Guided (o : Options) (fit : List Command → Config → Prop) (R : State → State → Prop)
    (fault : Fault → Prop) : Prop where
  refl : ∀ s, R s s
  trans : ∀ s t u, R s t → R t u → R s u
  unknown : ∀ k cs, fit (.unknown :: cs) k → fault .unknownForm
  rounds : fault (.tooManyRounds o.maxIterations)
  condition : ∀ env s c cs e, fit (c :: cs) ⟨env, s⟩ → c.condition? = some e →
    Meets (evalCondition o env e s) (fun _ => True) fault
  complexDecl : ∀ env s name e cs, fit (.complexDecl name e :: cs) ⟨env, s⟩ →
    Meets (declareComplex o env s name e) (fun k => fit cs k ∧ R s k.state) fault
  vertexDecl : ∀ env s name cs, fit (.vertexDecl name :: cs) ⟨env, s⟩ →
    Yields (declareVertex env s name) (fun k => fit cs k ∧ R s k.state) fault
  assign : ∀ env s name e cs, fit (.assign name e :: cs) ⟨env, s⟩ →
    Meets (assignComplex o env s name e) (fun k => fit cs k ∧ R s k.state) fault
  functionDecl : ∀ env s fn cs, fit (.functionDecl fn :: cs) ⟨env, s⟩ →
    fit cs ⟨Table.set env fn.name (.closure fn env), s⟩
  enter : ∀ k c cs block, fit (c :: cs) k → block ∈ c.blocks → fit block k
  leave : ∀ env s c cs k, fit (c :: cs) ⟨env, s⟩ → c.blocks ≠ [] → fit [] k → R s k.state →
    fit (c :: cs) ⟨env, k.state.rollback s.nextLoc⟩ ∧ R s (k.state.rollback s.nextLoc)
  done : ∀ k c cs, fit (c :: cs) k → c.blocks ≠ [] → fit cs k

namespace Guided

variable {o : Options} {fit : List Command → Config → Prop} {R : State → State → Prop}
  {fault : Fault → Prop}

theorem announce_meets (hG : Guided o fit R fault) {k : Config} {c : Command} {cs : List Command}
    (hk : fit (c :: cs) k) : Meets (announce o c) (fun _ => True) fault := by
  unfold announce
  split
  · exact .throw (hG.unknown k cs hk)
  · split
    · exact fun _ => trivial
    · exact .pure trivial

theorem round_meets (hG : Guided o fit R fault) {env : Environment} {s : State} {c : Command}
    {cs block : List Command} (hk : fit (c :: cs) ⟨env, s⟩) (hc : c.blocks ≠ [])
    (hblock : Meets (execAll o env s block) (fun k => fit [] k ∧ R s k.state) fault) :
    Meets (execAll o env s block >>= fun k => (pure (k.state.rollback s.nextLoc) : Traced State))
      (fun t => fit (c :: cs) ⟨env, t⟩ ∧ R s t) fault :=
  hblock.bind fun k h => .pure (hG.leave env s c cs k hk hc h.1 h.2)

mutual

theorem exec_meets (hG : Guided o fit R fault) (env : Environment) (s : State)
    (cs : List Command) : ∀ c : Command, fit (c :: cs) ⟨env, s⟩ →
      Meets (exec o env s c) (fun k => fit cs k ∧ R s k.state) fault
  | .complexDecl name e, hk => by
    rw [exec]
    exact (hG.announce_meets hk).bind fun _ _ => .silent (hG.complexDecl env s name e cs hk)
  | .vertexDecl name, hk => by
    rw [exec]
    exact (hG.announce_meets hk).bind fun _ _ => .lift (hG.vertexDecl env s name cs hk)
  | .assign name e, hk => by
    rw [exec]
    exact (hG.announce_meets hk).bind fun _ _ => .silent (hG.assign env s name e cs hk)
  | .branch cond yes no, hk => by
    rw [exec]
    apply (hG.announce_meets hk).bind
    intro _ _
    apply (Meets.silent (hG.condition env s _ cs cond hk rfl)).bind
    intro holds _
    have hblocks : (Command.branch cond yes no).blocks ≠ [] := by simp [Command.blocks]
    have hend : ∀ k, fit [] k ∧ R s k.state →
        fit cs ⟨env, k.state.rollback s.nextLoc⟩ ∧ R s (k.state.rollback s.nextLoc) := by
      intro k h
      have hleft := hG.leave env s _ cs k hk hblocks h.1 h.2
      exact ⟨hG.done _ _ cs hleft.1 hblocks, hleft.2⟩
    split
    · have hyes := hG.enter _ _ cs yes hk (by simp [Command.blocks])
      exact (execAll_meets hG env s yes hyes).bind fun k h => .pure (hend k h)
    · have hno := hG.enter _ _ cs no hk (by simp [Command.blocks])
      exact (execAll_meets hG env s no hno).bind fun k h => .pure (hend k h)
  | .loop cond body, hk => by
    rw [exec]
    apply (hG.announce_meets hk).bind
    intro _ _
    have hblocks : (Command.loop cond body).blocks ≠ [] := by simp [Command.blocks]
    have hloop : Meets (repeatWhile o.maxIterations (evalCondition o env cond) (fun t =>
        execAll o env t body >>= fun k => pure (k.state.rollback t.nextLoc))
        o.maxIterations.countBelow s) (fun t => fit (.loop cond body :: cs) ⟨env, t⟩ ∧ R s t)
        fault := by
      apply Meets.repeatWhile hG.rounds _ _ _ s ⟨hk, hG.refl s⟩
      · exact fun t ht => hG.condition env t _ cs cond ht.1 rfl
      · intro t ht
        have hbody := hG.enter _ _ cs body ht.1 (by simp [Command.blocks])
        apply (hG.round_meets ht.1 hblocks (execAll_meets hG env t body hbody)).mono
        exact fun u hu => ⟨hu.1, hG.trans s t u ht.2 hu.2⟩
    exact hloop.bind fun t ht => .pure ⟨hG.done _ _ cs ht.1 hblocks, ht.2⟩
  | .functionDecl fn, hk => by
    rw [exec]
    apply (hG.announce_meets hk).bind
    exact fun _ _ => .pure ⟨hG.functionDecl env s fn cs hk, hG.refl s⟩
  | .unknown, hk => by
    rw [exec]
    exact (hG.announce_meets hk).bind fun _ _ => .throw (hG.unknown _ cs hk)

theorem execAll_meets (hG : Guided o fit R fault) (env : Environment) (s : State) :
    ∀ cs : List Command, fit cs ⟨env, s⟩ →
      Meets (execAll o env s cs) (fun k => fit [] k ∧ R s k.state) fault
  | [], hk => by
    rw [execAll]
    exact .pure ⟨hk, hG.refl s⟩
  | c :: cs, hk => by
    rw [execAll]
    apply (exec_meets hG env s cs c hk).bind
    intro k h
    apply (execAll_meets hG k.env k.state cs h.1).mono
    exact fun l hl => ⟨hl.1, hG.trans s k.state l.state h.2 hl.2⟩

end

theorem passes (hG : Guided o fit R fault) {k l : Config} {cs : List Command}
    (h : Passes o k cs l) (hk : fit cs k) : (∃ ds, fit ds l) ∧ R k.state l.state := by
  induction h with
  | start k cs => exact ⟨⟨cs, hk⟩, hG.refl _⟩
  | @next k k' l c cs σ τ hc _ ih =>
    have hstep := (hG.exec_meets k.env k.state cs c hk).of_ok hc
    obtain ⟨hl, hR⟩ := ih hstep.1
    exact ⟨hl, hG.trans _ _ _ hstep.2 hR⟩
  | yes _ ih => exact ih (hG.enter _ _ _ _ hk (by simp [Command.blocks]))
  | no _ ih => exact ih (hG.enter _ _ _ _ hk (by simp [Command.blocks]))
  | body _ ih => exact ih (hG.enter _ _ _ _ hk (by simp [Command.blocks]))
  | @round k k' l cond body cs σ τ hb _ ih =>
    have hbody := hG.enter _ _ _ body hk (by simp [Command.blocks])
    have hround := (hG.execAll_meets k.env k.state body hbody).of_ok hb
    -- the round leaves its state, but the next one starts in the environment of the loop
    have hleft := hG.leave k.env k.state _ cs k' hk (by simp [Command.blocks]) hround.1 hround.2
    obtain ⟨hl, hR⟩ := ih hleft.1
    exact ⟨hl, hG.trans _ _ _ hleft.2 hR⟩

end Guided

/-- An invariant of configurations that commands keep, if their literals are as asked for, with a
relation between the states before and after, and a condition on the faults met. -/
structure Stepwise (literal : List String → Prop) (I : Config → Prop) (R : State → State → Prop)
    (fault : Fault → Prop) : Prop where
  refl : ∀ s, R s s
  trans : ∀ s t u, R s t → R t u → R s u
  unknown : fault .unknownForm
  rounds : ∀ limit, fault (.tooManyRounds limit)
  condition : ∀ o env s e, I ⟨env, s⟩ → (∀ vs ∈ e.literals, literal vs) →
    Meets (evalCondition o env e s) (fun _ => True) fault
  complexDecl : ∀ o env s name e, I ⟨env, s⟩ → (∀ vs ∈ e.literals, literal vs) →
    Meets (declareComplex o env s name e) (fun k => I k ∧ R s k.state) fault
  vertexDecl : ∀ env s name, I ⟨env, s⟩ →
    Yields (declareVertex env s name) (fun k => I k ∧ R s k.state) fault
  assign : ∀ o env s name e, I ⟨env, s⟩ → (∀ vs ∈ e.literals, literal vs) →
    Meets (assignComplex o env s name e) (fun k => I k ∧ R s k.state) fault
  functionDecl : ∀ env s fn, I ⟨env, s⟩ → (∀ vs ∈ fn.body.literals, literal vs) →
    I ⟨Table.set env fn.name (.closure fn env), s⟩
  block : ∀ env s k, I ⟨env, s⟩ → I k → R s k.state →
    I ⟨env, k.state.rollback s.nextLoc⟩ ∧ R s (k.state.rollback s.nextLoc)

theorem Command.mem_literals_of_block {c : Command} {block : List Command}
    (hb : block ∈ c.blocks) {vs : List String} (h : vs ∈ literalsOfAll block) :
    vs ∈ c.literals := by
  cases c with
  | branch cond yes no =>
    simp only [blocks, List.mem_cons, List.not_mem_nil, or_false] at hb
    rcases hb with rfl | rfl <;> simp [literals, h]
  | loop cond body =>
    simp only [blocks, List.mem_singleton] at hb
    subst hb
    simp [literals, h]
  | _ => simp [blocks] at hb

theorem Command.mem_literals_of_condition {c : Command} {e : Expr} (he : c.condition? = some e)
    {vs : List String} (h : vs ∈ e.literals) : vs ∈ c.literals := by
  cases c with
  | branch cond yes no =>
    cases he
    simp [literals, h]
  | loop cond body =>
    cases he
    simp [literals, h]
  | _ => cases he

namespace Stepwise

variable {literal : List String → Prop} {I : Config → Prop} {R : State → State → Prop}
  {fault : Fault → Prop}

theorem guided (hI : Stepwise literal I R fault) (o : Options) :
    Guided o (fun cs k => I k ∧ ∀ vs ∈ Command.literalsOfAll cs, literal vs) R fault := by
  have hfirst : ∀ {c : Command} {cs : List Command},
      (∀ vs ∈ Command.literalsOfAll (c :: cs), literal vs) → ∀ vs ∈ c.literals, literal vs :=
    fun h vs hvs => h vs (by simp [Command.literalsOfAll, hvs])
  have hrest : ∀ {c : Command} {cs : List Command},
      (∀ vs ∈ Command.literalsOfAll (c :: cs), literal vs) →
        ∀ vs ∈ Command.literalsOfAll cs, literal vs :=
    fun h vs hvs => h vs (by simp [Command.literalsOfAll, hvs])
  exact {
    refl := hI.refl
    trans := hI.trans
    unknown := fun _ _ _ => hI.unknown
    rounds := hI.rounds _
    condition := fun env s c cs e hk he => hI.condition o env s e hk.1 fun vs hvs =>
      hfirst hk.2 vs (Command.mem_literals_of_condition he hvs)
    complexDecl := fun env s name e cs hk =>
      (hI.complexDecl o env s name e hk.1 (hfirst hk.2)).mono
        fun k h => ⟨⟨h.1, hrest hk.2⟩, h.2⟩
    vertexDecl := fun env s name cs hk =>
      (hI.vertexDecl env s name hk.1).mono fun k h => ⟨⟨h.1, hrest hk.2⟩, h.2⟩
    assign := fun env s name e cs hk =>
      (hI.assign o env s name e hk.1 (hfirst hk.2)).mono fun k h => ⟨⟨h.1, hrest hk.2⟩, h.2⟩
    functionDecl := fun env s fn cs hk =>
      ⟨hI.functionDecl env s fn hk.1 (hfirst hk.2), hrest hk.2⟩
    enter := fun k c cs block hk hb =>
      ⟨hk.1, fun vs hvs => hfirst hk.2 vs (Command.mem_literals_of_block hb hvs)⟩
    leave := fun env s c cs k hk _ h hR =>
      have hblock := hI.block env s k hk.1 h.1 hR
      ⟨⟨hblock.1, hk.2⟩, hblock.2⟩
    done := fun k c cs hk _ => ⟨hk.1, hrest hk.2⟩ }

theorem execAll_meets (hI : Stepwise literal I R fault) (o : Options) (env : Environment)
    (s : State) (hk : I ⟨env, s⟩) (cs : List Command)
    (hcs : ∀ vs ∈ Command.literalsOfAll cs, literal vs) :
    Meets (execAll o env s cs) (fun k => I k ∧ R s k.state) fault :=
  ((hI.guided o).execAll_meets env s cs ⟨hk, hcs⟩).mono fun _ h => ⟨h.1.1, h.2⟩

theorem passes (hI : Stepwise literal I R fault) {o : Options} {k l : Config} {cs : List Command}
    (h : Passes o k cs l) (hk : I k) (hcs : ∀ vs ∈ Command.literalsOfAll cs, literal vs) : I l := by
  obtain ⟨⟨ds, hl⟩, -⟩ := (hI.guided o).passes h ⟨hk, hcs⟩
  exact hl.1

theorem carries (hI : Stepwise literal (fun _ => True) R fault) {P : State → Prop}
    (hP : ∀ s t, R s t → P s → P t) : Stepwise literal (fun k => P k.state) R fault where
  refl := hI.refl
  trans := hI.trans
  unknown := hI.unknown
  rounds := hI.rounds
  condition o env s e _ he := hI.condition o env s e trivial he
  complexDecl o env s name e hs he :=
    (hI.complexDecl o env s name e trivial he).mono fun _ h => ⟨hP _ _ h.2 hs, h.2⟩
  vertexDecl env s name hs :=
    (hI.vertexDecl env s name trivial).mono fun _ h => ⟨hP _ _ h.2 hs, h.2⟩
  assign o env s name e hs he :=
    (hI.assign o env s name e trivial he).mono fun _ h => ⟨hP _ _ h.2 hs, h.2⟩
  functionDecl _ _ _ hs _ := hs
  block env s k hs _ hR :=
    have h := (hI.block env s k trivial trivial hR).2
    ⟨hP _ _ h hs, h⟩

end Stepwise

end SimplexScript
