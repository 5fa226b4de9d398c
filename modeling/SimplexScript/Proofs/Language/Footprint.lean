import SimplexScript.Proofs.Language.Report
import SimplexScript.Proofs.Language.StoreSafety

/-!
# Footprints of commands

A complex that was stored before some commands changes only under an
assignment to the name of its address. Names may be shadowed in blocks, and
addresses given back are used again, but never below the next address: a name
bound to an old address was bound to it from the start, and a new variable
gets a new address.
-/

set_option autoImplicit false

namespace SimplexScript

def Value.address? : Value → Option Number
  | .loc a => some a
  | _ => none

theorem Value.address?_eq_some {v : Value} {a : Number} :
    v.address? = some a ↔ v = .loc a := by
  cases v <;> simp [address?]

def Command.target? : Command → Option String
  | .assign name _ => some name
  | _ => none

/-- The names to which commands assign, at any depth. -/
def Command.targets (cs : List Command) : List String := (partsOfAll cs).filterMap target?

theorem Command.targets_subset {bs cs : List Command}
    (h : (partsOfAll bs).Sublist (partsOfAll cs)) : targets bs ⊆ targets cs :=
  (h.filterMap target?).subset

theorem Command.mem_targets_assign (name : String) (e : Expr) (cs : List Command) :
    name ∈ targets (.assign name e :: cs) :=
  List.mem_filterMap.2 ⟨_, mem_partsOfAll_self _ cs, rfl⟩

/-- What is left of an earlier configuration by commands that assign to these names. Its addresses
are bound as they were, if at all, and one with another complex is bound to such a name. -/
structure Config.Footprint (start : Config) (names : List String) (k : Config) : Prop where
  layout : ∃ n, k.Layout n
  grown : start.state.store.length ≤ k.state.store.length
  bound : ∀ x a, a.lt start.state.nextLoc = true → (x, Value.loc a) ∈ k.env →
    (x, Value.loc a) ∈ start.env
  changed : ∀ a, a.lt start.state.nextLoc = true →
    Table.get? k.state.store a ≠ Table.get? start.state.store a →
      ∃ x ∈ names, (x, Value.loc a) ∈ start.env

namespace Config.Footprint

variable {start : Config} {names : List String} {n : Nat} {env : Environment} {s : State}

theorem refl (hstart : start.Layout n) : start.Footprint names start where
  layout := ⟨n, hstart⟩
  grown := Nat.le_refl _
  bound _ _ _ h := h
  changed _ _ h := absurd rfl h

theorem below {k : Config} (h : start.Footprint names k) (hstart : start.Layout n) {a : Number}
    (ha : a.lt start.state.nextLoc = true) : a.lt k.state.nextLoc = true := by
  obtain ⟨m, hk⟩ := h.layout
  have hgrown := h.grown
  rw [hstart.length, hk.length] at hgrown
  rw [hstart.next] at ha
  rw [hk.next]
  exact Number.lt_ofInt_of_le ha (by omega)

theorem ne_nextLoc {k : Config} (h : start.Footprint names k) (hstart : start.Layout n) {a : Number}
    (ha : a.lt start.state.nextLoc = true) : a ≠ k.state.nextLoc := by
  rintro rfl
  obtain ⟨m, hk⟩ := h.layout
  have hself := h.below hstart ha
  rw [hk.next, Number.lt_ofInt] at hself
  omega

theorem declareComplex_meets (h : start.Footprint names ⟨env, s⟩) (hstart : start.Layout n)
    (o : Options) (name : String) (e : Expr) :
    Meets (declareComplex o env s name e)
      (fun k => start.Footprint names k ∧ s.store.length ≤ k.state.store.length)
      (fun _ => True) := by
  have hlayout := layout_stepwise.complexDecl o env s name e h.layout fun _ _ => trivial
  have hrest : Meets (declareComplex o env s name e)
      (fun k => ∃ c, k.env = Table.set env name (.loc s.nextLoc) ∧
        k.state.store = Table.set s.store s.nextLoc c) (fun _ => True) :=
    (Meets.any _).bind fun c _ => .pure ⟨c, rfl, rfl⟩
  apply ((hlayout.weaken fun _ _ => trivial).and hrest).mono
  rintro k ⟨⟨hk, hle⟩, c, henv, hstore⟩
  have hnew {a : Number} (ha : a.lt start.state.nextLoc = true) : s.nextLoc ≠ a :=
    (h.ne_nextLoc hstart ha).symm
  refine ⟨⟨hk, Nat.le_trans h.grown hle, ?_, ?_⟩, hle⟩
  · intro x a ha hx
    rw [henv] at hx
    rcases Table.mem_set hx with he | hx
    · cases he
      exact absurd rfl (hnew ha)
    · exact h.bound x a ha hx
  · intro a ha hne
    rw [hstore, Table.get?_set, if_neg (hnew ha)] at hne
    exact h.changed a ha hne

theorem assignComplex_meets (h : start.Footprint names ⟨env, s⟩) (o : Options) {name : String}
    (hname : name ∈ names) (e : Expr) :
    Meets (assignComplex o env s name e)
      (fun k => start.Footprint names k ∧ s.store.length ≤ k.state.store.length)
      (fun _ => True) := by
  have hlayout := layout_stepwise.assign o env s name e h.layout fun _ _ => trivial
  have hrest : Meets (assignComplex o env s name e)
      (fun k => k.env = env ∧ ∃ a c, Table.get? env name = some (.loc a) ∧
        k.state.store = Table.set s.store a c) (fun _ => True) := by
    apply Meets.bind (.lift (env.lookup_yields name trivial))
    intro v hv
    cases v with
    | loc a =>
      apply (Meets.any (evalComplex o env s e _)).bind
      intro c _
      apply (Meets.lift (s.update_yields a c trivial)).bind
      rintro t rfl
      exact .pure ⟨rfl, a, c, hv, rfl⟩
    | _ => exact .throw trivial
  apply ((hlayout.weaken fun _ _ => trivial).and hrest).mono
  rintro k ⟨⟨hk, hle⟩, henv, b, c, hb, hstore⟩
  refine ⟨⟨hk, Nat.le_trans h.grown hle, ?_, ?_⟩, hle⟩
  · rw [henv]
    exact h.bound
  · intro a ha hne
    rw [hstore, Table.get?_set] at hne
    split at hne
    next hba => exact ⟨name, hname, h.bound name a ha (hba ▸ Table.mem_of_get? hb)⟩
    next => exact h.changed a ha hne

theorem bind (h : start.Footprint names ⟨env, s⟩) {t : State} {name : String} {v : Value}
    (hlayout : ∃ m, Config.Layout m ⟨Table.set env name v, t⟩) (hstore : t.store = s.store)
    (hv : ∀ a, v ≠ .loc a) : start.Footprint names ⟨Table.set env name v, t⟩ where
  layout := hlayout
  grown := hstore ▸ h.grown
  bound := by
    intro x a ha hx
    rcases Table.mem_set hx with he | hx
    · cases he
      exact absurd rfl (hv a)
    · exact h.bound x a ha hx
  changed := hstore ▸ h.changed

theorem rollback {k : Config} (h : start.Footprint names ⟨env, s⟩) (hstart : start.Layout n)
    (hk : start.Footprint names k) (hle : s.store.length ≤ k.state.store.length) :
    start.Footprint names ⟨env, k.state.rollback s.nextLoc⟩ ∧
      s.store.length ≤ (k.state.rollback s.nextLoc).store.length := by
  obtain ⟨hlayout, hgrown⟩ := layout_stepwise.block env s k h.layout hk.layout hle
  refine ⟨⟨hlayout, Nat.le_trans h.grown hgrown, h.bound, ?_⟩, hgrown⟩
  intro a ha hne
  have hbelow : a.lt s.nextLoc = true := h.below hstart ha
  simp only [State.get?_rollback, hbelow, Bool.or_true, if_true] at hne
  exact hk.changed a ha hne

end Config.Footprint

theorem footprint_guided (o : Options) {start : Config} {n : Nat} (hstart : start.Layout n)
    (names : List String) :
    Guided o (fun cs k => start.Footprint names k ∧ Command.targets cs ⊆ names)
      (fun s t => s.store.length ≤ t.store.length) (fun _ => True) := by
  have hrest : ∀ c cs, Command.targets (c :: cs) ⊆ names → Command.targets cs ⊆ names :=
    fun c cs h => List.Subset.trans
      (Command.targets_subset (Command.partsOfAll_rest_sublist c cs)) h
  exact {
    refl := fun _ => Nat.le_refl _
    trans := fun _ _ _ h h' => Nat.le_trans h h'
    unknown := fun _ _ _ => trivial
    rounds := trivial
    condition := fun _ _ _ _ _ _ _ => Meets.any _
    complexDecl := fun env s name e cs hk =>
      (hk.1.declareComplex_meets hstart o name e).mono fun k h => ⟨⟨h.1, hrest _ cs hk.2⟩, h.2⟩
    vertexDecl := by
      intro env s name cs hk
      have hlayout := layout_stepwise.vertexDecl env s name hk.1.layout
      cases hdecl : declareVertex env s name with
      | error f => trivial
      | ok k =>
        rw [hdecl] at hlayout
        obtain ⟨v, t, hfresh, rfl⟩ := exists_of_declareVertex hdecl
        obtain ⟨id, -, -, rfl⟩ := State.exists_of_fresh hfresh
        exact ⟨⟨hk.1.bind hlayout.1 rfl (by simp), hrest _ cs hk.2⟩, hlayout.2⟩
    assign := by
      intro env s name e cs hk
      have hname : name ∈ names := hk.2 (Command.mem_targets_assign name e cs)
      apply (hk.1.assignComplex_meets o hname e).mono
      exact fun k h => ⟨⟨h.1, hrest _ cs hk.2⟩, h.2⟩
    functionDecl := by
      intro env s fn cs hk
      have hlayout := layout_stepwise.functionDecl env s fn hk.1.layout fun _ _ => trivial
      exact ⟨hk.1.bind hlayout rfl (by simp), hrest _ cs hk.2⟩
    enter := fun k c cs block hk hb => ⟨hk.1, List.Subset.trans
      (Command.targets_subset (Command.partsOfAll_block_sublist hb cs)) hk.2⟩
    leave := by
      intro env s c cs k hk _ h hle
      obtain ⟨hfoot, hgrown⟩ := hk.1.rollback hstart h.1 hle
      exact ⟨⟨hfoot, hk.2⟩, hgrown⟩
    done := fun k c cs hk _ => ⟨hk.1, hrest c cs hk.2⟩ }

theorem Config.Layout.keys_eq {m n : Nat} {k l : Config} (hk : k.Layout n) (hl : l.Layout m)
    (hnext : l.state.nextLoc = k.state.nextLoc)
    (hle : k.state.store.length ≤ l.state.store.length)
    (hne : k.state.store.length ≠ addressLimit) :
    Table.keys l.state.store = Table.keys k.state.store := by
  have hkb := hk.bound
  have hlb := hl.bound
  rw [hk.next, hl.next, Number.ofInt_inj] at hnext
  rw [hk.length] at hle hne
  rw [hl.length] at hle
  have hmn : m = n := by omega
  rw [hk.keys, hl.keys, hmn]

/-- An address below the next one that holds another complex is bound to exactly one name, and that
is one of these. -/
def Config.ChangesOnly (k : Config) (names : List String) (t : State) : Prop :=
  ∀ a, a.lt k.state.nextLoc = true → Table.get? t.store a ≠ Table.get? k.state.store a →
    ∃ x ∈ names, ∀ y, Table.get? k.env y = some (.loc a) ↔ y = x

theorem Config.Footprint.changesOnly {k l : Config} {names : List String}
    (h : k.Footprint names l) {n : Nat} (hk : k.Layout n) (hnames : (Table.keys k.env).Nodup) :
    k.ChangesOnly names l.state := by
  intro a ha hne
  obtain ⟨x, hx, hmem⟩ := h.changed a ha hne
  refine ⟨x, hx, ?_⟩
  intro y
  rw [Table.get?_eq_some_iff hnames]
  constructor
  · intro hy
    have haccept := hk.env _ hmem
    cases haccept with
    | loc haddr =>
      obtain ⟨i, -, rfl⟩ := mem_addresses.1 haddr
      rw [hk.next, Number.lt_ofInt] at ha
      exact hk.separate y x i (by omega) hy hmem
  · rintro rfl
    exact hmem

/-- Commands executed where a program stands change a complex stored there only if it has exactly one
name and they assign to that name. One without a name stays for good. A branch or a loop leaves the
environment and the next address as they were, and the allocated addresses too, unless counting comes
to rest just there. -/
theorem commands_change_only_targets (o p : Options) (before cs : List Command) (k : Config)
    (hk : Passes p Config.initial before k) :
    (∀ σ l τ, execAll o k.env k.state cs σ = .ok l τ →
      k.ChangesOnly (Command.targets cs) l.state) ∧
    (∀ l, Passes o k cs l → k.ChangesOnly (Command.targets cs) l.state ∧
      ∀ a, a.lt k.state.nextLoc = true → (∀ x, Table.get? k.env x ≠ some (.loc a)) →
        Table.get? l.state.store a = Table.get? k.state.store a) ∧
    ∀ c σ l τ, c.blocks ≠ [] → exec o k.env k.state c σ = .ok l τ →
      l.env = k.env ∧ l.state.nextLoc = k.state.nextLoc ∧
      (k.state.store.length ≠ addressLimit →
        Table.keys l.state.store = Table.keys k.state.store) := by
  obtain ⟨n, hlayout⟩ := layout_stepwise.passes hk ⟨0, layout_initial⟩ fun _ _ => trivial
  have hnames := names_stepwise.passes hk names_initial fun _ _ => trivial
  have hpass : ∀ l, Passes o k cs l → k.ChangesOnly (Command.targets cs) l.state := by
    intro l hl
    have hstart : k.Footprint (Command.targets cs) k := .refl hlayout
    obtain ⟨⟨_, hfoot, -⟩, -⟩ :=
      (footprint_guided o hlayout (Command.targets cs)).passes hl ⟨hstart, List.Subset.refl _⟩
    exact hfoot.changesOnly hlayout hnames
  refine ⟨fun σ l τ h => hpass l (.of_execAll h), ?_, ?_⟩
  · intro l hl
    refine ⟨hpass l hl, ?_⟩
    intro a ha hfree
    by_contra hne
    obtain ⟨x, -, hx⟩ := hpass l hl a ha hne
    exact hfree x ((hx x).2 rfl)
  · intro c σ l τ hc hl
    obtain ⟨henv, hnext⟩ := (exec_block_meets o k.env k.state hc).of_ok hl
    obtain ⟨⟨⟨m, hm⟩, -⟩, hle⟩ :=
      ((layout_stepwise.guided o).exec_meets k.env k.state [] c
        ⟨⟨n, hlayout⟩, fun _ _ => trivial⟩).of_ok hl
    exact ⟨henv, hnext, hlayout.keys_eq hm hnext hle⟩

/-- A loop assigns to a variable of its own and to one that shadows another, which a function still
reads. -/
theorem commands_change_only_targets_shadowed :
    let before := [Command.complexDecl "A" (.complexLit ["a"]),
      .functionDecl ⟨"f", [], .ident "A"⟩, .complexDecl "A" (.complexLit ["b"])]
    let loop := Command.loop (.opCall "less" [.opCall "num_vert" [.ident "A"] none,
        .int (.ofInt 2)] none)
      [.complexDecl "B" (.ident "A"), .assign "B" (.complexLit ["d"]),
        .assign "A" (.opCall "union" [.funCall "f" [], .ident "A"] none)]
    ∃ k l τ, Passes Options.default Config.initial before k ∧
      exec Options.default k.env k.state loop .empty = .ok l τ ∧
      Table.get? l.state.store (.ofInt 1) ≠ Table.get? k.state.store (.ofInt 1) ∧
      (∀ y, Table.get? k.env y = some (.loc (.ofInt 1)) ↔ y = "A") ∧
      Table.get? l.state.store (.ofInt 0) = Table.get? k.state.store (.ofInt 0) ∧
      Table.keys l.state.store = Table.keys k.state.store := by
  intro before loop
  have hloop : loop.blocks ≠ [] := by simp [loop, Command.blocks]
  have hok : resultPasses (fun k => k.state.nextLoc == .ofInt 2 && k.state.store.length == 2 &&
      (Table.get? k.env "A").bind Value.address? == some (.ofInt 1) &&
      k.env.all (fun e => e.2.address? != some (.ofInt 0)) &&
      resultPasses (fun l => (Table.get? l.state.store (.ofInt 1)).map Complex.maximal !=
        (Table.get? k.state.store (.ofInt 1)).map Complex.maximal)
        (exec Options.default k.env k.state loop .empty))
      (execAll Options.default Environment.initial .empty before .empty) = true := by
    decide +kernel
  clear_value before loop
  obtain ⟨k, _, hk, hchecked⟩ := exists_of_resultPasses hok
  simp only [Bool.and_eq_true, beq_iff_eq] at hchecked
  obtain ⟨⟨⟨⟨hnext, hlen⟩, hA⟩, hfree⟩, hrun⟩ := hchecked
  obtain ⟨l, τ, hl, hdiff⟩ := exists_of_resultPasses hrun
  have hbound : Table.get? k.env "A" = some (.loc (.ofInt 1)) := by
    obtain ⟨v, hv, ha⟩ := Option.bind_eq_some_iff.1 hA
    rw [hv, Value.address?_eq_some.1 ha]
  have hunbound : ∀ x, Table.get? k.env x ≠ some (.loc (.ofInt 0)) := by
    intro x hx
    simpa [Value.address?] using List.all_eq_true.1 hfree _ (Table.mem_of_get? hx)
  have hne : Table.get? l.state.store (.ofInt 1) ≠ Table.get? k.state.store (.ofInt 1) :=
    fun h => (bne_iff_ne.1 hdiff) (congrArg (Option.map Complex.maximal) h)
  have hk' : Passes Options.default Config.initial before k := .of_execAll hk
  obtain ⟨-, hchange, hblock⟩ :=
    commands_change_only_targets Options.default Options.default before [loop] k hk'
  obtain ⟨honly, hkept⟩ := hchange l (.next hl (.start _ _))
  obtain ⟨x, -, hx⟩ := honly (.ofInt 1) (by rw [hnext, Number.lt_ofInt]; omega) hne
  obtain rfl := (hx "A").1 hbound
  refine ⟨k, l, τ, hk', hl, hne, hx, ?_, ?_⟩
  · exact hkept (.ofInt 0) (by rw [hnext, Number.lt_ofInt]; omega) hunbound
  · apply (hblock loop .empty l τ hloop hl).2.2
    rw [hlen]
    decide

end SimplexScript
