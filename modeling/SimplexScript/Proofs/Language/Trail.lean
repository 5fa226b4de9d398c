import SimplexScript.Proofs.Language.Execution

/-!
# Trails of executions

The trail of an execution lists every command that is started, in order, with
the configuration in which it starts: the commands of blocks inside their
block, and a loop once for each time that its condition is asked. A trail ends
where a fault ends the execution. It is what a trace of the execution logs, and
what commands keep holds all along it.
-/

set_option autoImplicit false

namespace SimplexScript

/-- A command that is about to be executed in a configuration, or a loop that is about to ask its
condition again. -/
structure Station where
  config : Config
  command : Command
  again : Bool

/-- The state behind a command that declares a vertex. Of other commands only the state in which
they start is told here. -/
def Station.reached (x : Station) : State :=
  match x.command with
  | .vertexDecl name =>
    match declareVertex x.config.env x.config.state name with
    | .ok k => k.state
    | .error _ => x.config.state
  | _ => x.config.state

/-- What follows on the result of a computation and the session that it leaves. Nothing follows on a
fault. -/
def Traced.andThen {α β : Type} (x : Traced α) (next : α → Session → List β) (σ : Session) :
    List β :=
  match x σ with
  | .ok a τ => next a τ
  | .error _ _ => []

def roundsTrail (station : State → Station) (cond : State → Noted Bool)
    (body : State → Traced State) (inside : State → Session → List Station) :
    Nat → State → Session → List Station
  | 0, _, _ => []
  | rounds + 1, s, σ =>
    (Traced.silent (cond s)).andThen (fun again τ =>
      if again then
        inside s τ ++ (body s).andThen (fun t υ =>
          station t :: roundsTrail station cond body inside rounds t υ) τ
      else []) σ

mutual

def trail (o : Options) (env : Environment) (s : State) : Command → Session → List Station
  | .branch cond yes no, σ =>
    ⟨⟨env, s⟩, .branch cond yes no, false⟩ :: (announce o (.branch cond yes no)).andThen (fun _ =>
      (Traced.silent (evalCondition o env cond s)).andThen fun holds τ =>
        if holds then trailAll o env s yes τ else trailAll o env s no τ) σ
  | .loop cond body, σ =>
    ⟨⟨env, s⟩, .loop cond body, false⟩ :: (announce o (.loop cond body)).andThen (fun _ =>
      roundsTrail (fun t => ⟨⟨env, t⟩, .loop cond body, true⟩) (evalCondition o env cond)
        (fun t => do
          let after ← execAll o env t body
          pure (after.state.rollback t.nextLoc))
        (fun t τ => trailAll o env t body τ) o.maxIterations.countBelow s) σ
  | c, _ => [⟨⟨env, s⟩, c, false⟩]

def trailAll (o : Options) (env : Environment) (s : State) :
    List Command → Session → List Station
  | [], _ => []
  | c :: rest, σ => trail o env s c σ ++
      (exec o env s c).andThen (fun k τ => trailAll o k.env k.state rest τ) σ

end

section Log

variable {α β : Type}

/-- What a trace says of a station. A loop is announced before its first round, and a form outside
the language not at all. -/
def Station.line? (x : Station) : Option String :=
  match x.command, x.again with
  | .unknown, _ => none
  | _, true => none
  | c, false => some ("[Evaluator] " ++ c.describe)

def announced (xs : List Station) : List String := xs.filterMap Station.line?

/-- A computation logs the stations of a trail, whether it has a result or ends in a fault. -/
def Logs (x : Traced α) (xs : Session → List Station) : Prop :=
  ∀ σ, match x σ with
    | .ok _ τ => τ.log.toList = σ.log.toList ++ announced (xs σ)
    | .error _ τ => τ.log.toList = σ.log.toList ++ announced (xs σ)

namespace Logs

variable {x : Traced α} {y : α → Traced β} {xs : Session → List Station}
  {ys : α → Session → List Station}

theorem pure (a : α) : Logs (pure a) (fun _ => []) := by
  intro σ
  simp [Pure.pure, EStateM.pure, announced]

theorem throw (f : Fault) : Logs (throw f : Traced α) (fun _ => []) := by
  intro σ
  exact (List.append_nil _).symm

theorem line {text : String} {z : Station} (hz : z.line? = some text) :
    Logs (Traced.line text) (fun _ => [z]) := by
  intro σ
  change (σ.log.push text).toList = _
  simp [announced, hz]

theorem silent (x : Noted α) : Logs (Traced.silent x) (fun _ => []) := by
  intro σ
  simp only [Traced.silent]
  cases x σ.notes <;> simp [announced]

theorem lift (x : Except Fault α) : Logs (x : Traced α) (fun _ => []) := by
  cases x with
  | ok a => exact pure a
  | error f => exact throw f

theorem bind (hx : Logs x xs) (hy : ∀ a, Logs (y a) (ys a)) :
    Logs (x >>= y) (fun σ => xs σ ++ x.andThen ys σ) := by
  intro σ
  have h := hx σ
  simp only [Bind.bind, EStateM.bind, Traced.andThen]
  cases hr : x σ with
  | ok a τ =>
    have h' := hy a τ
    simp only [hr] at h
    simp only [announced, List.filterMap_append] at h h' ⊢
    cases hr' : y a τ <;> simp_all
  | error f τ =>
    simp only [hr] at h
    simpa using h

theorem after (hx : Logs x (fun _ => [])) (hy : ∀ a, Logs (y a) (ys a)) :
    Logs (x >>= y) (x.andThen ys) :=
  hx.bind hy

theorem behind (hx : Logs x xs) (hy : ∀ a, Logs (y a) (fun _ => [])) : Logs (x >>= y) xs := by
  intro σ
  have h := hx.bind hy σ
  simp only [Traced.andThen] at h
  cases hr : x σ <;> simpa [hr] using h

theorem skip (hx : Logs x xs) {z : Station} (hz : z.line? = none) :
    Logs x (fun σ => z :: xs σ) := by
  intro σ
  have h := hx σ
  simp only [announced, List.filterMap_cons, hz]
  exact h

end Logs

variable {o : Options}

theorem announce_logs (ho : o.trace = true) (k : Config) (c : Command) :
    Logs (announce o c) (fun _ => [⟨k, c, false⟩]) := by
  cases c with
  | unknown => exact (Logs.throw _).skip rfl
  | _ =>
    simp only [announce, ho, if_true]
    exact .line rfl

theorem repeatWhile_logs {limit : Number} {station : State → Station} {cond : State → Noted Bool}
    {body : State → Traced State} {inside : State → Session → List Station}
    (hstation : ∀ t, (station t).line? = none) (hbody : ∀ t, Logs (body t) (inside t))
    (rounds : Nat) (s : State) : Logs (repeatWhile limit cond body rounds s)
      (roundsTrail station cond body inside rounds s) := by
  induction rounds generalizing s with
  | zero =>
    apply (Logs.silent (cond s)).behind
    intro again
    cases again with
    | true => exact .throw _
    | false => exact .pure s
  | succ rounds ih =>
    apply (Logs.silent (cond s)).after
    intro again
    cases again with
    | true => exact (hbody s).bind fun t => (ih t).skip (hstation t)
    | false => exact .pure s

mutual

theorem exec_logs (ho : o.trace = true) (env : Environment) (s : State) :
    ∀ c : Command, Logs (exec o env s c) (trail o env s c)
  | .complexDecl name e => by
    rw [exec]
    exact (announce_logs ho ⟨env, s⟩ _).behind fun _ => .silent _
  | .vertexDecl name => by
    rw [exec]
    exact (announce_logs ho ⟨env, s⟩ _).behind fun _ => .lift _
  | .assign name e => by
    rw [exec]
    exact (announce_logs ho ⟨env, s⟩ _).behind fun _ => .silent _
  | .branch cond yes no => by
    rw [exec]
    apply (announce_logs ho ⟨env, s⟩ _).bind
    intro _
    apply (Logs.silent (evalCondition o env cond s)).after
    intro holds
    cases holds with
    | true => exact (execAll_logs ho env s yes).behind fun _ => .pure _
    | false => exact (execAll_logs ho env s no).behind fun _ => .pure _
  | .loop cond body => by
    rw [exec]
    apply (announce_logs ho ⟨env, s⟩ _).bind
    intro _
    apply Logs.behind _ fun _ => .pure _
    apply repeatWhile_logs fun _ => rfl
    exact fun t => (execAll_logs ho env t body).behind fun _ => .pure _
  | .functionDecl fn => by
    rw [exec]
    exact (announce_logs ho ⟨env, s⟩ _).behind fun _ => .pure _
  | .unknown => by
    rw [exec]
    exact (announce_logs ho ⟨env, s⟩ _).behind fun _ => .throw _

/-- The trail of an execution is what its trace shows. -/
theorem execAll_logs (ho : o.trace = true) (env : Environment) (s : State) :
    ∀ cs : List Command, Logs (execAll o env s cs) (trailAll o env s cs)
  | [] => by
    rw [execAll]
    exact .pure _
  | c :: cs => by
    rw [execAll]
    exact (exec_logs ho env s c).bind fun k => execAll_logs ho k.env k.state cs

end

end Log

section Chained

variable {R : State → State → Prop}

/-- States along a trail are related one to the next, from a state before it to one behind it. -/
def Chained (R : State → State → Prop) : State → List Station → State → Prop
  | s, [], t => R s t
  | s, x :: rest, t => R s x.config.state ∧ Chained R x.reached rest t

theorem Chained.of_rel (htrans : ∀ s t u, R s t → R t u → R s u) {s s' t : State}
    {xs : List Station} (hs : R s s') (h : Chained R s' xs t) : Chained R s xs t := by
  cases xs with
  | nil => exact htrans _ _ _ hs h
  | cons x rest => exact ⟨htrans _ _ _ hs h.1, h.2⟩

theorem Chained.append (htrans : ∀ s t u, R s t → R t u → R s u) {s t u : State}
    {xs ys : List Station} (hx : Chained R s xs t) (hy : Chained R t ys u) :
    Chained R s (xs ++ ys) u := by
  induction xs generalizing s with
  | nil => exact hy.of_rel htrans hx
  | cons x rest ih => exact ⟨hx.1, ih hx.2⟩

end Chained

/-- The stations of a trail meet a condition and are chained, up to the state in a result. -/
def Tracks {α : Type} (P : Station → Prop) (R : State → State → Prop) (s : State)
    (xs : Session → List Station) (x : Traced α) (f : α → State) : Prop :=
  ∀ σ, (∀ y ∈ xs σ, P y) ∧ ∃ t, Chained R s (xs σ) t ∧ ∀ a τ, x σ = .ok a τ → R t (f a)

namespace Tracks

variable {α β : Type} {P : Station → Prop} {R : State → State → Prop} {fault : Fault → Prop}
  {s : State} {x : Traced α} {f : α → State}

theorem quiet (hrefl : ∀ s, R s s) (hx : Meets x (fun a => R s (f a)) fun _ => True) :
    Tracks P R s (fun _ => []) x f := by
  intro σ
  refine ⟨by simp, s, hrefl s, ?_⟩
  intro a τ h
  exact hx.of_ok h

theorem cons {y : Station} {xs : Session → List Station} (hP : P y) (hR : R s y.config.state)
    (h : Tracks P R y.reached xs x f) : Tracks P R s (fun σ => y :: xs σ) x f := by
  intro σ
  obtain ⟨hxs, t, hchain, ht⟩ := h σ
  exact ⟨List.forall_mem_cons.2 ⟨hP, hxs⟩, t, ⟨hR, hchain⟩, ht⟩

theorem bind (htrans : ∀ s t u, R s t → R t u → R s u) {xs : Session → List Station}
    {y : α → Traced β} {ys : α → Session → List Station} {g : β → State} {Q : α → Prop}
    (hx : Tracks P R s xs x f) (hQ : Meets x Q fault)
    (hy : ∀ a, Q a → Tracks P R (f a) (ys a) (y a) g) :
    Tracks P R s (fun σ => xs σ ++ x.andThen ys σ) (x >>= y) g := by
  intro σ
  obtain ⟨hxs, t, hchain, ht⟩ := hx σ
  simp only [Traced.andThen, Bind.bind, EStateM.bind]
  cases hr : x σ with
  | ok a τ =>
    obtain ⟨hys, u, hchain', hu⟩ := hy a (hQ.of_ok hr) τ
    refine ⟨?_, u, hchain.append htrans (hchain'.of_rel htrans (ht a τ hr)), hu⟩
    intro z hz
    rcases List.mem_append.1 hz with hz | hz
    · exact hxs z hz
    · exact hys z hz
  | error e τ =>
    refine ⟨by simpa using hxs, t, by simpa using hchain, ?_⟩
    intro b υ h
    cases h

theorem after (hrefl : ∀ s, R s s) (htrans : ∀ s t u, R s t → R t u → R s u) {y : α → Traced β}
    {ys : α → Session → List Station} {g : β → State} {Q : α → Prop} (hQ : Meets x Q fault)
    (hy : ∀ a, Q a → Tracks P R s (ys a) (y a) g) : Tracks P R s (x.andThen ys) (x >>= y) g :=
  (quiet hrefl (f := fun _ => s) ((Meets.any x).mono fun _ _ => hrefl s)).bind htrans hQ hy

theorem map (htrans : ∀ s t u, R s t → R t u → R s u) {xs : Session → List Station} {g : β → State}
    {h : α → β} {Q : α → Prop} (hx : Tracks P R s xs x f) (hQ : Meets x Q fault)
    (hg : ∀ a, Q a → R (f a) (g (h a))) :
    Tracks P R s xs (x >>= fun a => pure (h a)) g := by
  intro σ
  obtain ⟨hxs, t, hchain, ht⟩ := hx σ
  refine ⟨hxs, t, hchain, ?_⟩
  intro b υ hb
  obtain ⟨a, τ, ha, hab⟩ := bind_eq_ok.1 hb
  cases hab
  exact htrans _ _ _ (ht a _ ha) (hg a (hQ.of_ok ha))

end Tracks

namespace Guided

variable {o : Options} {fit : List Command → Config → Prop} {R : State → State → Prop}
  {fault : Fault → Prop}

/-- Where a command is started, the configuration is fit for it and for some commands behind it. -/
def Stops (fit : List Command → Config → Prop) (x : Station) : Prop :=
  ∃ ds, fit (x.command :: ds) x.config

theorem roundsTrail_tracks (hG : Guided o fit R fault) {limit : Number} {env : Environment}
    {cond : Expr} {block cs : List Command} {inside : State → Session → List Station}
    {body : State → Traced State}
    (hbody : ∀ t, fit (.loop cond block :: cs) ⟨env, t⟩ →
      Meets (body t) (fun u => fit (.loop cond block :: cs) ⟨env, u⟩ ∧ R t u) fault)
    (hinside : ∀ t, fit (.loop cond block :: cs) ⟨env, t⟩ →
      Tracks (Stops fit) R t (inside t) (body t) id)
    (rounds : Nat) (s : State) (hs : fit (.loop cond block :: cs) ⟨env, s⟩) :
    Tracks (Stops fit) R s (roundsTrail (fun t => ⟨⟨env, t⟩, .loop cond block, true⟩)
      (evalCondition o env cond) body inside rounds s)
      (repeatWhile limit (evalCondition o env cond) body rounds s) id := by
  induction rounds generalizing s with
  | zero =>
    apply Tracks.quiet hG.refl
    apply (Meets.any _).bind
    intro again _
    cases again with
    | true => exact .throw trivial
    | false => exact .pure (hG.refl s)
  | succ rounds ih =>
    apply Tracks.after hG.refl hG.trans (Meets.silent (hG.condition env s _ cs cond hs rfl))
    intro again _
    cases again with
    | true =>
      apply (hinside s hs).bind hG.trans (hbody s hs)
      intro t ht
      exact (ih t ht.1).cons ⟨cs, ht.1⟩ (hG.refl t)
    | false => exact Tracks.quiet hG.refl (.pure (hG.refl s))

theorem step_tracks (hG : Guided o fit R fault) {env : Environment} {s : State} {c : Command}
    {cs : List Command} (hk : fit (c :: cs) ⟨env, s⟩) (hc : Station.reached ⟨⟨env, s⟩, c, false⟩ = s) :
    Tracks (Stops fit) R s (fun _ => [⟨⟨env, s⟩, c, false⟩]) (exec o env s c) Config.state := by
  apply Tracks.cons ⟨cs, hk⟩ (hG.refl s)
  rw [hc]
  apply Tracks.quiet hG.refl
  exact ((hG.exec_meets env s cs c hk).mono fun _ h => h.2).weaken fun _ _ => trivial

mutual

theorem trail_tracks (hG : Guided o fit R fault) (hback : ∀ t mark, R t (State.rollback t mark))
    (env : Environment) (s : State) (cs : List Command) : ∀ c : Command, fit (c :: cs) ⟨env, s⟩ →
      Tracks (Stops fit) R s (trail o env s c) (exec o env s c) Config.state
  | .complexDecl name e, hk => hG.step_tracks hk rfl
  | .vertexDecl name, hk => by
    have hquiet : Tracks (Stops fit) R
        (Station.reached ⟨⟨env, s⟩, .vertexDecl name, false⟩) (fun _ => [])
        (exec o env s (.vertexDecl name)) Config.state := by
      apply Tracks.quiet hG.refl
      rw [exec]
      apply (Meets.any _).bind
      intro _ _
      apply Meets.lift
      cases h : declareVertex env s name with
      | ok k =>
        simp only [Station.reached, h]
        exact hG.refl _
      | error e => trivial
    exact hquiet.cons ⟨cs, hk⟩ (hG.refl s)
  | .assign name e, hk => hG.step_tracks hk rfl
  | .branch cond yes no, hk => by
    have hyes := hG.enter _ _ cs yes hk (by simp [Command.blocks])
    have hno := hG.enter _ _ cs no hk (by simp [Command.blocks])
    rw [exec]
    apply Tracks.cons ⟨cs, hk⟩ (hG.refl s)
    apply Tracks.after hG.refl hG.trans (hG.announce_meets hk)
    intro _ _
    apply Tracks.after hG.refl hG.trans (Meets.silent (hG.condition env s _ cs cond hk rfl))
    intro holds _
    cases holds with
    | true =>
      apply (trailAll_tracks hG hback env s yes hyes).map hG.trans (Meets.any _)
      exact fun k _ => hback k.state s.nextLoc
    | false =>
      apply (trailAll_tracks hG hback env s no hno).map hG.trans (Meets.any _)
      exact fun k _ => hback k.state s.nextLoc
  | .loop cond body, hk => by
    have hbody : ∀ t, fit (.loop cond body :: cs) ⟨env, t⟩ → fit body ⟨env, t⟩ :=
      fun t ht => hG.enter _ _ cs body ht (by simp [Command.blocks])
    rw [exec]
    apply Tracks.cons ⟨cs, hk⟩ (hG.refl s)
    apply Tracks.after hG.refl hG.trans (hG.announce_meets hk)
    intro _ _
    refine Tracks.map hG.trans (hG.roundsTrail_tracks ?_ ?_ _ s hk) (Meets.any _)
      fun t _ => hG.refl t
    · intro t ht
      exact hG.round_meets ht (by simp [Command.blocks])
        (hG.execAll_meets env t body (hbody t ht))
    · intro t ht
      apply (trailAll_tracks hG hback env t body (hbody t ht)).map hG.trans (Meets.any _)
      exact fun k _ => hback k.state t.nextLoc
  | .functionDecl fn, hk => hG.step_tracks hk rfl
  | .unknown, hk => hG.step_tracks hk rfl

theorem trailAll_tracks (hG : Guided o fit R fault)
    (hback : ∀ t mark, R t (State.rollback t mark)) (env : Environment) (s : State) :
    ∀ cs : List Command, fit cs ⟨env, s⟩ →
      Tracks (Stops fit) R s (trailAll o env s cs) (execAll o env s cs) Config.state
  | [], hk => by
    rw [execAll]
    exact Tracks.quiet hG.refl (.pure (hG.refl s))
  | c :: cs, hk => by
    rw [execAll]
    apply (trail_tracks hG hback env s cs c hk).bind hG.trans (hG.exec_meets env s cs c hk)
    exact fun k h => trailAll_tracks hG hback k.env k.state cs h.1

end

end Guided

end SimplexScript
