import Mathlib.Logic.Equiv.Defs
import SimplexScript.Proofs.Language.FreshVertices
import SimplexScript.Proofs.Language.Tandem

/-!
# Runs up to renaming of addresses

Which addresses a program is given shows nowhere but in its store. If two
configurations differ in a renaming of addresses only, and in the order in
which vertices were declared, then so do those that a program reaches from
them, as long as it picks no vertex: picking alone reads that order. A renaming
must leave alone the addresses that are still to be given out.
-/

set_option autoImplicit false

namespace SimplexScript

def pickName : String := "pick_vert"

section Matched

variable (tie : Number → Number → Prop)

/-- Values that differ in tied addresses only, function for function over environments that bind
the same names. No function applies what the name of picking stands for, and the operator that
picks stands under no other name. -/
inductive Matched : String → Value → Value → Prop
  | complex (x : String) (c : Complex) : Matched x (.complex c) (.complex c)
  | int (x : String) (a : Number) : Matched x (.int a) (.int a)
  | closure (x : String) {fn : Function} {env env' : List (String × Value)}
      (hbody : ∀ op ∈ fn.body.operators, op ≠ pickName)
      (hsame : ∀ y, (Table.get? env y).isSome = (Table.get? env' y).isSome)
      (henv : ∀ y v v', Table.get? env y = some v → Table.get? env' y = some v' → Matched y v v') :
      Matched x (.closure fn env) (.closure fn env')
  | loc (x : String) {a a' : Number} (h : tie a a') : Matched x (.loc a) (.loc a')
  | vertex (x v : String) : Matched x (.vertex v) (.vertex v)
  | operator {x : String} {op : Operator} (h : op.rule = .pick → x = pickName) :
      Matched x (.operator op) (.operator op)

/-- Matched values, with nothing learned of drafts since the notes given, and success alone in
view. -/
def matching (n : Notes) : Coupling where
  bound := Matched tie
  address := tie
  applied op := op ≠ pickName
  picks := False
  notes m := m = n
  excused _ := True

variable {tie}

theorem matching_lawful (n : Notes) {s s' : State}
    (h : ∀ a a', tie a a' → ∀ c, Table.get? s.store a = some c → Table.get? s'.store a' = some c) :
    (matching tie n).Lawful s s' where
  alike := by
    intro x v v' hv
    cases hv with
    | complex _ c => exact .complex c
    | int _ a => exact .int a
    | closure _ hbody hsame henv =>
      exact .closure hbody fun y => Coupling.sees_iff.2 ⟨hsame y, henv y⟩
    | loc _ ha => exact .loc ha
    | vertex _ v => exact .vertex v
    | operator hop => exact .operator fun hx hr => hx (hop hr)
  complex := .complex
  int := .int
  closure := by
    intro x y fn env fn' env' hv
    cases hv with
    | closure _ hbody hsame henv => exact .closure y hbody hsame henv
  access := by
    intro a a' ha
    unfold State.access
    cases hc : Table.get? s.store a with
    | none => exact .excused trivial _
    | some c =>
      rw [h a a' ha c hc]
      exact .ok rfl
  order := False.elim
  learn := False.elim

theorem matched_closure (n : Notes) {fn : Function} {env env' : Environment} (x : String)
    (hbody : ∀ op ∈ fn.body.operators, op ≠ pickName)
    (henv : ∀ y, (matching tie n).Sees env env' y) :
    Matched tie x (.closure fn env) (.closure fn env') :=
  .closure x hbody (fun y => (Coupling.sees_iff.1 (henv y)).1)
    fun y => (Coupling.sees_iff.1 (henv y)).2

theorem Matched.mono {tie' : Number → Number → Prop} {D : Discipline}
    (h : ∀ a a', D.address a → tie a a' → tie' a a') {x : String} {v v' : Value}
    (hv : Matched tie x v v') (hD : D.Accepts v) : Matched tie' x v v' := by
  induction hv with
  | complex x c => exact .complex x c
  | int x a => exact .int x a
  | closure x hbody hsame _ ih =>
    cases hD with
    | closure _ hcap =>
      apply Matched.closure x hbody hsame
      intro y w w' hw hw'
      exact ih y w w' hw hw' (hcap _ (Table.mem_of_get? hw))
  | loc x ha =>
    cases hD with
    | loc hDa => exact .loc x (h _ _ hDa ha)
  | vertex x v => exact .vertex x v
  | operator hop => exact .operator hop

theorem sees_mono {tie' : Number → Number → Prop} {D : Discipline}
    (h : ∀ a a', D.address a → tie a a' → tie' a a') {n : Notes} {env env' : Environment}
    (hD : D.AcceptsAll env) {x : String} (hx : (matching tie n).Sees env env' x) :
    (matching tie' n).Sees env env' x := by
  obtain ⟨hsame, hbound⟩ := Coupling.sees_iff.1 hx
  refine Coupling.sees_iff.2 ⟨hsame, ?_⟩
  intro v v' hv hv'
  exact (hbound v v' hv hv').mono h (hD _ (Table.mem_of_get? hv))

end Matched

/-- A renaming of addresses, and the addresses from which allocation may go on under it. -/
structure Renaming where
  map : Equiv.Perm Number
  free : Number → Prop
  fixed : ∀ m, free m → map m = m
  below : ∀ m a, free m → (map a).lt m = a.lt m
  next : ∀ m, free m → free (m.add (.ofInt 1))

namespace Renaming

def refl : Renaming where
  map := Equiv.refl Number
  free _ := True
  fixed _ _ := rfl
  below _ _ _ := rfl
  next _ _ := trivial

def tie (ρ : Renaming) (a a' : Number) : Prop := a' = ρ.map a

/-- States that differ in a renaming of addresses and in the order of their vertices. -/
structure Relates (ρ : Renaming) (s s' : State) : Prop where
  store : ∀ a, Table.get? s.store a = Table.get? s'.store (ρ.map a)
  nextLoc : s.nextLoc = s'.nextLoc
  free : ρ.free s.nextLoc
  vertices : ∀ v, v ∈ Table.keys s.vertexOrder ↔ v ∈ Table.keys s'.vertexOrder
  numbered : s.Numbered
  numbered' : s'.Numbered

structure RelatesAll (ρ : Renaming) (n : Notes) (k k' : Config) : Prop where
  state : ρ.Relates k.state k'.state
  env : ∀ x, (matching ρ.tie n).Sees k.env k'.env x

variable {ρ : Renaming} {s s' : State}

theorem Relates.lawful (h : ρ.Relates s s') (n : Notes) : (matching ρ.tie n).Lawful s s' := by
  apply matching_lawful
  rintro a _ rfl c hc
  rw [← h.store, hc]

theorem get?_set_map (ρ : Renaming) {t t' : Table Number Complex}
    (h : ∀ a, Table.get? t a = Table.get? t' (ρ.map a)) (b : Number) (c : Complex) (a : Number) :
    Table.get? (Table.set t b c) a = Table.get? (Table.set t' (ρ.map b) c) (ρ.map a) := by
  rw [Table.get?_set, Table.get?_set, h a]
  simp only [EmbeddingLike.apply_eq_iff_eq]

theorem Relates.declare (h : ρ.Relates s s') (vs : List String) :
    ρ.Relates (s.declare vs) (s'.declare vs) where
  store := h.store
  nextLoc := h.nextLoc
  free := h.free
  vertices v := by rw [State.mem_keys_declare, State.mem_keys_declare, h.vertices v]
  numbered := h.numbered.grow rfl fun _ hv => State.mem_keys_declare.2 (.inl hv)
  numbered' := h.numbered'.grow rfl fun _ hv => State.mem_keys_declare.2 (.inl hv)

theorem Relates.allocate (h : ρ.Relates s s') (c : Complex) :
    ρ.Relates (s.allocate c).2 (s'.allocate c).2 where
  store a := by
    have hset := ρ.get?_set_map h.store s.nextLoc c a
    rw [ρ.fixed _ h.free] at hset
    simp only [State.allocate, ← h.nextLoc]
    exact hset
  nextLoc := by simp only [State.allocate, h.nextLoc]
  free := ρ.next _ h.free
  vertices := h.vertices
  numbered := h.numbered
  numbered' := h.numbered'

theorem Relates.update (h : ρ.Relates s s') (a : Number) (c : Complex) :
    Echoes (fun _ => True) ρ.Relates (s.update a c) (s'.update (ρ.map a) c) := by
  have hsame : Table.contains s.store a = Table.contains s'.store (ρ.map a) := by
    rw [Table.contains, Table.contains, h.store a]
  unfold State.update
  rw [hsame]
  split
  · exact .ok { h with store := ρ.get?_set_map h.store a c }
  · exact .excused trivial _

theorem Relates.fresh (h : ρ.Relates s s') :
    Echoes (fun _ => True) (fun e e' => e.1 = e'.1 ∧ ρ.Relates e.2 e'.2) s.fresh s'.fresh := by
  rcases h.numbered.fresh_cases with ⟨hend, -⟩ | ⟨n, t, hn, ht, hnum⟩
  · rw [hend]
    exact .excused trivial _
  rcases h.numbered'.fresh_cases with ⟨-, hall⟩ | ⟨n', t', hn', ht', hnum'⟩
  · exact absurd ((h.vertices _).2 (hall n hn.counted)) hn.undeclared
  have hsame : s.FirstUndeclared n' :=
    ⟨hn'.counted, fun hv => hn'.undeclared ((h.vertices _).1 hv),
      fun j hj => (h.vertices _).2 (hn'.declared j hj)⟩
  obtain rfl := hn.unique hsame
  have hvertices : ∀ v, v ∈ Table.keys t.vertexOrder ↔ v ∈ Table.keys t'.vertexOrder := by
    intro v
    rw [State.mem_keys_fresh ht, State.mem_keys_fresh ht', h.vertices v]
  obtain ⟨_, -, -, rfl⟩ := State.exists_of_fresh ht
  obtain ⟨_, -, -, rfl⟩ := State.exists_of_fresh ht'
  rw [ht, ht']
  exact .ok ⟨rfl, h.store, h.nextLoc, h.free, hvertices, hnum, hnum'⟩

theorem Relates.rollback {t t' : State} (h : ρ.Relates t t') {mark : Number} (hmark : ρ.free mark) :
    ρ.Relates (t.rollback mark) (t'.rollback mark) where
  store a := by
    rw [State.get?_rollback, State.get?_rollback, h.nextLoc, ρ.below mark a hmark, h.store a]
  nextLoc := by rw [State.rollback_nextLoc, State.rollback_nextLoc]
  free := by rwa [State.rollback_nextLoc]
  vertices v := by rw [State.rollback_vertexOrder, State.rollback_vertexOrder, h.vertices v]
  numbered := by
    apply h.numbered.grow (State.rollback_freshVertexId _ _)
    intro v hv
    rwa [State.rollback_vertexOrder]
  numbered' := by
    apply h.numbered'.grow (State.rollback_freshVertexId _ _)
    intro v hv
    rwa [State.rollback_vertexOrder]

theorem RelatesAll.bind {n : Notes} {env env' : Environment}
    (h : ρ.RelatesAll n ⟨env, s⟩ ⟨env', s'⟩) {t t' : State} (ht : ρ.Relates t t')
    {name : String} {v v' : Value} (hv : Matched ρ.tie name v v') :
    ρ.RelatesAll n ⟨Table.set env name v, t⟩ ⟨Table.set env' name v', t'⟩ where
  state := ht
  env x := (h.env x).set hv

/-- Configurations stay related through any commands that apply nothing under the name of
picking. -/
theorem tandem (ρ : Renaming) (o : Options) (n : Notes) :
    Tandem o o (fun op => op ≠ pickName) (ρ.RelatesAll n) (matching ρ.tie n).SameNotes
      (fun _ _ => True) (fun _ => True) where
  options := .refl _ o
  line _ _ _ _ := trivial
  condition env s env' s' e h he :=
    Coupling.evalCondition_follows (h.state.lawful n) (.refl _ o) (fun x _ => h.env x) he
  complexDecl env s env' s' name e h he := by
    apply (Coupling.evalComplex_follows (h.state.lawful n) (.refl _ o) (fun x _ => h.env x) he
      _).bind
    rintro c _ rfl
    have hs : ρ.Relates s s' := h.state
    have hloc : Matched ρ.tie name (.loc s.nextLoc) (.loc s'.nextLoc) := by
      apply Matched.loc
      rw [tie, ρ.fixed _ hs.free, hs.nextLoc]
    exact .pure (h.bind ((hs.declare c.vertices).allocate c) hloc)
  vertexDecl env s env' s' name h := by
    have hs : ρ.Relates s s' := h.state
    apply hs.fresh.bind
    rintro ⟨v, t⟩ ⟨_, t'⟩ ⟨rfl, ht⟩
    exact .ok (h.bind ht (.vertex name v))
  assign env s env' s' name e h he := by
    have hC := h.state.lawful n
    apply Follows.bind (.lift (h.env name).lookup)
    intro v v' hv
    cases hv with
    | loc _ ha =>
      apply (Coupling.evalComplex_follows hC (.refl _ o) (fun x _ => h.env x) he _).bind
      rintro c _ rfl
      rw [tie] at ha
      subst ha
      apply Follows.bind (.lift (h.state.update _ c))
      exact fun t t' ht => .pure ⟨ht, h.env⟩
    | _ => exact .throw _
  functionDecl env s env' s' fn h hfn :=
    h.bind h.state (matched_closure n fn.name hfn h.env)
  block env s env' s' k k' h hk := by
    have hs : ρ.Relates s s' := h.state
    refine ⟨?_, h.env⟩
    rw [← hs.nextLoc]
    exact hk.state.rollback hs.free

end Renaming

end SimplexScript
