import SimplexScript.Language.Exec
import SimplexScript.Proofs.Language.Execution

/-!
# Disciplines of stored complexes

Of the things that change in a run only the order of vertices matters to a
condition on complexes, and that order grows. So a condition that asks for
less as the order grows, and that the algebra keeps, holds of every complex in
the store and of all that names are bound to, in every configuration passed.
-/

set_option autoImplicit false

namespace SimplexScript

namespace State

theorem mem_keys_register {order : Table String Number} {v w : String} :
    w ∈ Table.keys (register order v) ↔ w ∈ Table.keys order ∨ w = v := by
  unfold register
  split
  next h =>
    have hv : v ∈ Table.keys order := (Table.contains_iff _ _).1 h
    constructor
    · exact Or.inl
    · rintro (hw | rfl)
      · exact hw
      · exact hv
  next => simp [Table.keys, eq_comm]

theorem mem_keys_declare {s : State} {vs : List String} {w : String} :
    w ∈ Table.keys (s.declare vs).vertexOrder ↔ w ∈ Table.keys s.vertexOrder ∨ w ∈ vs := by
  have hfold : ∀ order : Table String Number,
      w ∈ Table.keys (vs.foldl register order) ↔ w ∈ Table.keys order ∨ w ∈ vs := by
    induction vs with
    | nil => simp
    | cons v vs ih =>
      intro order
      rw [List.foldl_cons, ih, mem_keys_register, List.mem_cons, or_assoc]
  exact hfold s.vertexOrder

theorem mem_keys_fresh {s t : State} {v w : String} (h : s.fresh = .ok (v, t)) :
    w ∈ Table.keys t.vertexOrder ↔ w ∈ Table.keys s.vertexOrder ∨ w = v := by
  obtain ⟨id, -, -, rfl⟩ := exists_of_fresh h
  rw [mem_keys_declare, List.mem_singleton]

def Extends (s t : State) : Prop := ∀ v ∈ Table.keys s.vertexOrder, v ∈ Table.keys t.vertexOrder

theorem rollback_vertexOrder (s : State) (mark : Number) :
    (s.rollback mark).vertexOrder = s.vertexOrder := by
  unfold rollback
  split <;> rfl

theorem get?_rollback (s : State) (mark a : Number) : Table.get? (s.rollback mark).store a =
    if s.nextLoc.le mark || a.lt mark then Table.get? s.store a else none := by
  unfold rollback
  by_cases hle : s.nextLoc.le mark = true
  · simp [hle]
  · simp [hle, Table.get?_filter fun b : Number => b.lt mark]

theorem mem_store_rollback {s : State} {mark : Number} {e : Number × Complex}
    (h : e ∈ (s.rollback mark).store) : e ∈ s.store := by
  unfold rollback at h
  split at h
  · exact h
  · exact (List.mem_filter.1 h).1

end State

/-- Conditions on complexes and vertices by the state in which they are met. -/
structure Growth where
  complex : State → Complex → Prop
  vertex : State → String → Prop
  literal : List String → Prop
  excluded : Code → Prop

namespace Growth

def discipline (G : Growth) (s : State) : Discipline where
  complex := G.complex s
  address _ := True
  vertex := G.vertex s
  literal := G.literal
  excluded := G.excluded

structure Kept (G : Growth) : Prop where
  lawful : ∀ s, (G.discipline s).Lawful
  access : ¬ G.excluded .uninitializedAddress
  complex : ∀ s t, s.Extends t → ∀ c, G.complex s c → G.complex t c
  vertex : ∀ s t, s.Extends t → ∀ v, G.vertex s v → G.vertex t v
  fresh : ∀ (s t : State) (v : String), s.fresh = .ok (v, t) → G.vertex t v

structure Holds (G : Growth) (k : Config) : Prop where
  store : ∀ e ∈ k.state.store, G.complex k.state e.2
  env : (G.discipline k.state).AcceptsAll k.env

def Spares (G : Growth) (f : Fault) : Prop := ∀ c, f.code = some c → ¬ G.excluded c

variable {G : Growth}

theorem Kept.spares_access (hG : G.Kept) (a : Number) : G.Spares (.uninitializedAddress a) := by
  intro code hcode
  simp only [Fault.code, Option.some.injEq] at hcode
  exact hcode ▸ hG.access

theorem Holds.serves (hG : G.Kept) {env : Environment} {s : State} (h : G.Holds ⟨env, s⟩) :
    (G.discipline s).Serves s := by
  intro a _
  unfold State.access
  cases hc : Table.get? s.store a with
  | some c => exact h.store _ (Table.mem_of_get? hc)
  | none => exact hG.spares_access a

theorem Holds.eval (hG : G.Kept) {env : Environment} {s : State} (h : G.Holds ⟨env, s⟩)
    (limit : Number) {e : Expr} (he : ∀ vs ∈ e.literals, G.literal vs) :
    Meets (eval limit env s e) (G.discipline s).Accepts G.Spares :=
  Discipline.eval_meets (hG.lawful s) (h.serves hG) limit h.env he

theorem Holds.evalComplex (hG : G.Kept) {env : Environment} {s : State} (h : G.Holds ⟨env, s⟩)
    (o : Options) {e : Expr} (he : ∀ vs ∈ e.literals, G.literal vs) (context : String) :
    Meets (evalComplex o env s e context) (G.complex s) G.Spares :=
  (h.eval hG o.maxCallDepth he).bind fun _ hv =>
    .lift (Discipline.expectComplex_yields (hG.lawful s) context hv)

theorem Kept.acceptsAll (hG : G.Kept) {s t : State} (hst : s.Extends t) {env : Environment}
    (h : (G.discipline s).AcceptsAll env) : (G.discipline t).AcceptsAll env := by
  intro e he
  apply (h e he).mono
  · exact hG.complex s t hst
  · exact fun _ _ => trivial
  · exact hG.vertex s t hst
  · exact fun _ hvs => hvs

theorem Holds.grow (hG : G.Kept) {env : Environment} {s t : State} (h : G.Holds ⟨env, s⟩)
    (hst : s.Extends t) (hstore : ∀ e ∈ t.store, e ∈ s.store ∨ G.complex s e.2) :
    G.Holds ⟨env, t⟩ where
  store e he := by
    apply hG.complex s t hst
    rcases hstore e he with hs | hc
    · exact h.store e hs
    · exact hc
  env := hG.acceptsAll hst h.env

theorem Holds.bind {env : Environment} {s : State} (h : G.Holds ⟨env, s⟩) (name : String)
    {v : Value} (hv : (G.discipline s).Accepts v) : G.Holds ⟨Table.set env name v, s⟩ where
  store := h.store
  env := h.env.set hv

theorem holds_initial (G : Growth) : G.Holds Config.initial where
  store e he := by cases he
  env := Discipline.accepts_initial _

theorem condition_meets (hG : G.Kept) (o : Options) {env : Environment} {s : State} {e : Expr}
    (h : G.Holds ⟨env, s⟩) (he : ∀ vs ∈ e.literals, G.literal vs) :
    Meets (evalCondition o env e s) (fun _ => True) G.Spares := by
  apply (h.eval hG o.maxCallDepth he).bind
  intro v _
  exact (Meets.lift (Discipline.expectInt_yields (hG.lawful s) _ v)).bind fun _ _ => .pure trivial

theorem declareComplex_meets (hG : G.Kept) (o : Options) {env : Environment} {s : State}
    (name : String) {e : Expr} (h : G.Holds ⟨env, s⟩) (he : ∀ vs ∈ e.literals, G.literal vs) :
    Meets (declareComplex o env s name e) (fun k => G.Holds k ∧ s.Extends k.state) G.Spares := by
  apply (h.evalComplex hG o he _).bind
  intro c hc
  have hst : s.Extends ((s.declare c.vertices).allocate c).2 :=
    fun v hv => State.mem_keys_declare.2 (Or.inl hv)
  have hgrow : G.Holds ⟨env, ((s.declare c.vertices).allocate c).2⟩ := by
    apply h.grow hG hst
    intro d hd
    rcases Table.mem_set hd with rfl | hd
    · exact Or.inr hc
    · exact Or.inl hd
  exact .pure ⟨hgrow.bind name (.loc trivial), hst⟩

theorem assignComplex_meets (hG : G.Kept) (o : Options) {env : Environment} {s : State}
    (name : String) {e : Expr} (h : G.Holds ⟨env, s⟩) (he : ∀ vs ∈ e.literals, G.literal vs) :
    Meets (assignComplex o env s name e) (fun k => G.Holds k ∧ s.Extends k.state) G.Spares := by
  apply Meets.bind (.lift (Discipline.lookup_yields (hG.lawful s) h.env name))
  intro v hv
  cases hv with
  | @loc a _ =>
    apply (h.evalComplex hG o he _).bind
    intro c hc
    apply (Meets.lift (s.update_yields a c (hG.spares_access a))).bind
    rintro t rfl
    refine .pure ⟨h.grow hG (fun _ hv => hv) ?_, fun _ hv => hv⟩
    intro d hd
    rcases Table.mem_set hd with rfl | hd
    · exact Or.inr hc
    · exact Or.inl hd
  | _ => exact .throw ((hG.lawful s).spares (by simp [Fault.code, Code.guards]))

theorem Kept.stepwise (hG : G.Kept) : Stepwise G.literal G.Holds State.Extends G.Spares where
  refl s v hv := hv
  trans s t u hst htu v hv := htu v (hst v hv)
  unknown := by simp [Spares, Fault.code]
  rounds limit := (hG.lawful .empty).spares (by simp [Fault.code, Code.guards])
  condition o env s e h he := condition_meets hG o h he
  complexDecl o env s name e h he := declareComplex_meets hG o name h he
  vertexDecl env s name h := by
    apply declareVertex_yields
    · intro v t hfresh
      have hst : s.Extends t := fun w hw => (State.mem_keys_fresh hfresh).2 (Or.inl hw)
      have hgrow : G.Holds ⟨env, t⟩ := by
        obtain ⟨id, -, -, rfl⟩ := State.exists_of_fresh hfresh
        exact h.grow hG hst fun e he => Or.inl he
      exact ⟨hgrow.bind name (.vertex (hG.fresh s t v hfresh)), hst⟩
    · simp [Spares, Fault.code]
  assign o env s name e h he := assignComplex_meets hG o name h he
  functionDecl env s fn h he := h.bind fn.name (.closure he h.env)
  block env s k h hk hsk := by
    have hst : s.Extends (k.state.rollback s.nextLoc) := by
      intro v hv
      rw [State.rollback_vertexOrder]
      exact hsk v hv
    have hback : k.state.Extends (k.state.rollback s.nextLoc) := by
      intro v hv
      rw [State.rollback_vertexOrder]
      exact hv
    refine ⟨⟨?_, hG.acceptsAll hst h.env⟩, hst⟩
    exact fun e he => hG.complex _ _ hback _ (hk.store e (State.mem_store_rollback he))

end Growth

end SimplexScript
