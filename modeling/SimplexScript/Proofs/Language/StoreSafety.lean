import SimplexScript.Proofs.Complex.Outcomes
import SimplexScript.Proofs.Document.Runs
import SimplexScript.Proofs.Number.Exact

/-!
# Safety of the store

Addresses are given out in order and given back at the end of a block, so the
allocated ones are always the first so many. Every address that a name can
reach is among them, also through what functions captured: a block starts with
the addresses below its mark, and at its end only those remain reachable.

Addresses are counted in rounded sums. The count comes to rest at 2 ^ 53, and
the invariant is stated so that it holds there too.
-/

set_option autoImplicit false

namespace SimplexScript

/-- Where rounded counting comes to rest. -/
def addressLimit : Nat := 2 ^ 53

def addresses (n : Nat) : List Number := (List.range n).map fun i => Number.ofInt (i : Nat)

theorem mem_addresses {n : Nat} {a : Number} :
    a ∈ addresses n ↔ ∃ i : Nat, i < n ∧ a = Number.ofInt i := by
  simp only [addresses, List.mem_map, List.mem_range]
  constructor
  · rintro ⟨i, hi, rfl⟩
    exact ⟨i, hi, rfl⟩
  · rintro ⟨i, hi, rfl⟩
    exact ⟨i, hi, rfl⟩

theorem addresses_succ (n : Nat) : addresses (n + 1) = addresses n ++ [Number.ofInt n] := by
  simp [addresses, List.range_succ]

theorem length_addresses (n : Nat) : (addresses n).length = n := by simp [addresses]

theorem addresses_filter {m n : Nat} (h : m ≤ n) :
    (addresses n).filter (fun a => a.lt (.ofInt m)) = addresses m := by
  induction n with
  | zero =>
    obtain rfl : m = 0 := by omega
    rfl
  | succ n ih =>
    by_cases hm : m ≤ n
    · have hlast : (Number.ofInt n).lt (.ofInt m) = false := by
        rw [← Bool.not_eq_true, Number.lt_ofInt]
        omega
      simp [addresses_succ, ih hm, hlast]
    · obtain rfl : m = n + 1 := by omega
      apply List.filter_eq_self.2
      intro a ha
      obtain ⟨i, hi, rfl⟩ := mem_addresses.1 ha
      exact Number.lt_ofInt.2 (by omega)

def storeDiscipline (n : Nat) : Discipline where
  complex _ := True
  address a := a ∈ addresses n
  vertex _ := True
  literal _ := True
  excluded c := c = .uninitializedAddress

theorem storeDiscipline_spares {n : Nat} {f : Fault} (h : f.code ≠ some .uninitializedAddress) :
    (storeDiscipline n).Spares f := by
  rintro c hc rfl
  exact h hc

theorem storeDiscipline_lawful (n : Nat) : (storeDiscipline n).Lawful where
  guards := by
    rintro c rfl
    simp [Code.guards]
  view _ _ _ := trivial
  point _ _ := trivial
  literal _ _ _ _ := trivial
  union k l _ _ :=
    Complex.union_yields (fun _ _ _ => storeDiscipline_spares (by simp [Fault.code]))
      (Complex.quotient_yields (fun _ _ => storeDiscipline_spares (by simp [Fault.code]))
        fun _ => trivial)
  join k l _ _ :=
    Complex.quotient_yields (fun _ _ => storeDiscipline_spares (by simp [Fault.code]))
      fun _ => trivial
  glue k l m _ _ :=
    Complex.glue_yields (fun _ _ => storeDiscipline_spares (by simp [Fault.code]))
      (fun _ => storeDiscipline_spares (by simp [Fault.code]))
      (fun _ _ => Complex.checkConsistency_yields
        fun _ _ _ => storeDiscipline_spares (by simp [Fault.code]))
      fun _ => Complex.quotient_yields (fun _ _ => storeDiscipline_spares (by simp [Fault.code]))
        fun _ => trivial
  pick c order _ :=
    Complex.pick_yields (fun _ => storeDiscipline_spares (by simp [Fault.code]))
      fun _ _ => trivial

theorem storeDiscipline_mono {m n : Nat} (h : m ≤ n) {env : Environment}
    (henv : (storeDiscipline m).AcceptsAll env) : (storeDiscipline n).AcceptsAll env := by
  intro e he
  apply (henv e he).mono
  · exact fun _ _ => trivial
  · intro a ha
    obtain ⟨i, hi, rfl⟩ := mem_addresses.1 ha
    exact mem_addresses.2 ⟨i, by omega, rfl⟩
  · exact fun _ _ => trivial
  · exact fun _ _ => trivial

/-- The first `n` addresses are allocated, the next one follows them as far as counting goes, and
names are bound to allocated addresses, two names to two of them short of the limit. -/
structure Config.Layout (n : Nat) (k : Config) : Prop where
  bound : n ≤ addressLimit + 1
  keys : Table.keys k.state.store = addresses n
  next : k.state.nextLoc = .ofInt (min n addressLimit : Nat)
  env : (storeDiscipline n).AcceptsAll k.env
  separate : ∀ (x y : String) (i : Nat), i < addressLimit →
    (x, Value.loc (.ofInt i)) ∈ k.env → (y, Value.loc (.ofInt i)) ∈ k.env → x = y

theorem Config.Layout.length {n : Nat} {k : Config} (h : k.Layout n) :
    k.state.store.length = n := by
  have hl := congrArg List.length h.keys
  simpa [Table.keys, length_addresses] using hl

theorem Config.Layout.nextLoc {n : Nat} {k : Config} (h : k.Layout n) (hn : n ≤ addressLimit) :
    k.state.nextLoc = .ofInt n := by
  have hmin : min n addressLimit = n := by omega
  rw [h.next, hmin]

theorem Config.Layout.serves {n : Nat} {env : Environment} {s : State}
    (h : Config.Layout n ⟨env, s⟩) : (storeDiscipline n).Serves s := by
  intro a ha
  have hk : Table.keys s.store = addresses n := h.keys
  obtain ⟨c, hc⟩ := Table.exists_get?_of_mem_keys (hk ▸ ha : a ∈ Table.keys s.store)
  simp only [State.access, hc]
  trivial

theorem Config.Layout.eval {n : Nat} {env : Environment} {s : State} (h : Config.Layout n ⟨env, s⟩)
    (limit : Number) (e : Expr) :
    Meets (eval limit env s e) (storeDiscipline n).Accepts (storeDiscipline n).Spares :=
  Discipline.eval_meets (storeDiscipline_lawful n) h.serves limit h.env fun _ _ => trivial

theorem Config.Layout.evalComplex {n : Nat} {env : Environment} {s : State}
    (h : Config.Layout n ⟨env, s⟩) (o : Options) (e : Expr) (context : String) :
    Meets (evalComplex o env s e context) (fun _ => True) (storeDiscipline n).Spares :=
  (h.eval o.maxCallDepth e).bind fun _ hv =>
    .lift (Discipline.expectComplex_yields (storeDiscipline_lawful n) context hv)

theorem Config.Layout.bind {n : Nat} {env : Environment} {s : State}
    (h : Config.Layout n ⟨env, s⟩) (name : String) {v : Value} (hv : (storeDiscipline n).Accepts v)
    (hloc : ∀ a, v ≠ .loc a) : Config.Layout n ⟨Table.set env name v, s⟩ where
  bound := h.bound
  keys := h.keys
  next := h.next
  env := h.env.set hv
  separate := by
    intro x y i hi hx hy
    have hold {z : String} (hz : (z, Value.loc (.ofInt i)) ∈ Table.set env name v) :
        (z, Value.loc (.ofInt i)) ∈ env := by
      rcases Table.mem_set hz with he | he
      · cases he
        exact absurd rfl (hloc _)
      · exact he
    exact h.separate x y i hi (hold hx) (hold hy)

theorem Config.Layout.of_store_eq {n : Nat} {env : Environment} {s t : State}
    (h : Config.Layout n ⟨env, s⟩) (hs : Table.keys t.store = Table.keys s.store)
    (hl : t.nextLoc = s.nextLoc) : Config.Layout n ⟨env, t⟩ where
  bound := h.bound
  keys := hs.trans h.keys
  next := hl.trans h.next
  env := h.env
  separate := h.separate

theorem keys_allocate {n : Nat} {s : State} (hn : n ≤ addressLimit + 1)
    (hk : Table.keys s.store = addresses n) (hl : s.nextLoc = .ofInt (min n addressLimit : Nat))
    (c : Complex) :
    Table.keys (s.allocate c).2.store = addresses (min (n + 1) (addressLimit + 1)) := by
  simp only [State.allocate, hl, Table.keys_set, Table.contains_iff, hk, mem_addresses]
  by_cases h : n ≤ addressLimit
  · have hnew : ¬ ∃ i : Nat, i < n ∧ Number.ofInt (min n addressLimit : Nat) = Number.ofInt i := by
      rintro ⟨i, hi, he⟩
      have := Number.ofInt_inj.1 he
      omega
    have hmin : min n addressLimit = n := by omega
    have hmin' : min (n + 1) (addressLimit + 1) = n + 1 := by omega
    rw [if_neg hnew, hmin, hmin', addresses_succ]
  · have hold : ∃ i : Nat, i < n ∧ Number.ofInt (min n addressLimit : Nat) = Number.ofInt i :=
      ⟨min n addressLimit, by omega, rfl⟩
    have hmin' : min (n + 1) (addressLimit + 1) = n := by omega
    rw [if_pos hold, hmin']

theorem nextLoc_allocate {n : Nat} {s : State} (hl : s.nextLoc = .ofInt (min n addressLimit : Nat))
    (c : Complex) : (s.allocate c).2.nextLoc =
      .ofInt (min (min (n + 1) (addressLimit + 1)) addressLimit : Nat) := by
  simp only [State.allocate, hl]
  by_cases h : n < addressLimit
  · have hmin : min n addressLimit = n := by omega
    have hmin' : min (min (n + 1) (addressLimit + 1)) addressLimit = n + 1 := by omega
    rw [hmin, hmin']
    exact Number.add_one h
  · have hmin : min n addressLimit = addressLimit := by omega
    have hmin' : min (min (n + 1) (addressLimit + 1)) addressLimit = addressLimit := by omega
    rw [hmin, hmin']
    exact Number.add_one_rest

theorem Config.Layout.allocate {n : Nat} {env : Environment} {s : State}
    (h : Config.Layout n ⟨env, s⟩) (name : String) (c : Complex) :
    Config.Layout (min (n + 1) (addressLimit + 1))
      ⟨Table.set env name (.loc (s.allocate c).1), (s.allocate c).2⟩ where
  bound := by omega
  keys := keys_allocate h.bound h.keys h.next c
  next := nextLoc_allocate h.next c
  env := by
    have hb := h.bound
    have hn := h.next
    apply (storeDiscipline_mono (by omega) h.env).set
    exact .loc (mem_addresses.2 ⟨min n addressLimit, by omega, hn⟩)
  separate := by
    intro x y i hi hx hy
    have hnext : (s.allocate c).1 = .ofInt (min n addressLimit : Nat) := h.next
    rw [hnext] at hx hy
    have hbelow {z : String} (hz : (z, Value.loc (.ofInt i)) ∈ env) : i < n := by
      have ha := h.env _ hz
      cases ha with
      | loc ha =>
        obtain ⟨j, hj, he⟩ := mem_addresses.1 ha
        have := Number.ofInt_inj.1 he
        omega
    rcases Table.mem_set hx with ex | hx <;> rcases Table.mem_set hy with ey | hy
    · exact (Prod.ext_iff.1 ex).1.trans (Prod.ext_iff.1 ey).1.symm
    · simp only [Prod.mk.injEq, Value.loc.injEq, Number.ofInt_inj] at ex
      have := hbelow hy
      omega
    · simp only [Prod.mk.injEq, Value.loc.injEq, Number.ofInt_inj] at ey
      have := hbelow hx
      omega
    · exact h.separate x y i hi hx hy

theorem keys_rollback {m n : Nat} {s : State} (hmn : m ≤ n)
    (hk : Table.keys s.store = addresses n) (hl : s.nextLoc = .ofInt (min n addressLimit : Nat)) :
    Table.keys (s.rollback (.ofInt (min m addressLimit : Nat))).store =
      addresses (if m < addressLimit then m else n) := by
  simp only [State.rollback, hl, Number.le_ofInt]
  by_cases h : m < addressLimit
  · have hmin : min m addressLimit = m := by omega
    rw [if_pos h, hmin]
    by_cases hn : ((min n addressLimit : Nat) : Int) ≤ m
    · obtain rfl : n = m := by omega
      rw [if_pos hn, hk]
    · have hf : Table.keys (s.store.filter fun e => e.1.lt (.ofInt m)) =
          (Table.keys s.store).filter fun a => a.lt (.ofInt m) := by
        simp only [Table.keys, List.filter_map]
        rfl
      rw [if_neg hn, hf, hk, addresses_filter hmn]
  · have hn : ((min n addressLimit : Nat) : Int) ≤ (min m addressLimit : Nat) := by omega
    rw [if_neg h, if_pos hn, hk]

/-- A block gives back what it allocated, unless counting had come to rest before it. -/
theorem Config.Layout.block {m n : Nat} {env : Environment} {s : State} {k : Config}
    (hs : Config.Layout m ⟨env, s⟩) (hk : k.Layout n) (hmn : m ≤ n) :
    Config.Layout (if m < addressLimit then m else n)
      ⟨env, k.state.rollback s.nextLoc⟩ := by
  have hmark : s.nextLoc = .ofInt (min m addressLimit : Nat) := hs.next
  have hle : m ≤ if m < addressLimit then m else n := by split <;> omega
  rw [hmark]
  refine ⟨?_, keys_rollback hmn hk.keys hk.next, ?_, storeDiscipline_mono hle hs.env, hs.separate⟩
  · have := hk.bound
    have := hs.bound
    split <;> omega
  · have hnext : (k.state.rollback (.ofInt (min m addressLimit : Nat))).nextLoc =
        .ofInt (min m addressLimit : Nat) := by
      unfold State.rollback
      split <;> rfl
    rw [hnext]
    congr 2
    split <;> omega

section Commands

variable {n : Nat} {env : Environment} {s : State}

theorem Config.Layout.condition_meets (h : Config.Layout n ⟨env, s⟩) (o : Options) (e : Expr) :
    Meets (evalCondition o env e s) (fun _ => True) (storeDiscipline n).Spares := by
  apply (h.eval o.maxCallDepth e).bind
  intro v _
  exact (Meets.lift (Discipline.expectInt_yields (storeDiscipline_lawful n) _ v)).bind
    fun _ _ => .pure trivial

theorem Config.Layout.declare_meets (h : Config.Layout n ⟨env, s⟩) (o : Options) (name : String)
    (e : Expr) : Meets (declareComplex o env s name e)
      (fun k => (∃ m, k.Layout m) ∧ s.store.length ≤ k.state.store.length)
      (storeDiscipline n).Spares := by
  apply (h.evalComplex o e _).bind
  intro c _
  have ht : Config.Layout n ⟨env, s.declare c.vertices⟩ := h.of_store_eq rfl rfl
  have ha := ht.allocate name c
  have hlen : ((s.declare c.vertices).allocate c).2.store.length =
      min (n + 1) (addressLimit + 1) := ha.length
  have hold : s.store.length = n := h.length
  have hb := h.bound
  refine .pure ⟨⟨_, ha⟩, ?_⟩
  show s.store.length ≤ ((s.declare c.vertices).allocate c).2.store.length
  omega

theorem Config.Layout.assign_meets (h : Config.Layout n ⟨env, s⟩) (o : Options) (name : String)
    (e : Expr) : Meets (assignComplex o env s name e)
      (fun k => (∃ m, k.Layout m) ∧ s.store.length ≤ k.state.store.length)
      (storeDiscipline n).Spares := by
  apply Meets.bind (.lift (Discipline.lookup_yields (storeDiscipline_lawful n) h.env name))
  intro v hv
  cases hv with
  | @loc a ha =>
    have hk : Table.keys s.store = addresses n := h.keys
    have hc : Table.contains s.store a = true := (Table.contains_iff _ _).2 (hk ▸ ha)
    apply (h.evalComplex o e _).bind
    intro c _
    have hkeys : Table.keys (Table.set s.store a c) = Table.keys s.store := by
      rw [Table.keys_set, if_pos hc]
    have ht : Config.Layout n ⟨env, { s with store := Table.set s.store a c }⟩ :=
      h.of_store_eq hkeys rfl
    have hlen : (Table.set s.store a c).length = n := ht.length
    have hold : s.store.length = n := h.length
    have hu : s.update a c = .ok { s with store := Table.set s.store a c } := by
      rw [State.update, if_pos hc]
    rw [hu]
    exact .pure ⟨⟨n, ht⟩, by rw [hold, hlen]⟩
  | _ => exact .throw (storeDiscipline_spares (by simp [Fault.code]))

end Commands

theorem layout_stepwise : Stepwise (fun _ => True) (fun k => ∃ n, k.Layout n)
    (fun s t => s.store.length ≤ t.store.length)
    (fun f => f.code ≠ some .uninitializedAddress) where
  refl s := Nat.le_refl _
  trans s t u h h' := Nat.le_trans h h'
  unknown := by simp [Fault.code]
  rounds limit := by simp [Fault.code]
  condition := by
    rintro o env s e ⟨n, h⟩ -
    exact (h.condition_meets o e).weaken fun f hf hc => hf _ hc rfl
  complexDecl := by
    rintro o env s name e ⟨n, h⟩ -
    exact (h.declare_meets o name e).weaken fun f hf hc => hf _ hc rfl
  vertexDecl := by
    rintro env s name ⟨n, h⟩
    apply declareVertex_yields
    · intro v t hfresh
      obtain ⟨id, -, -, rfl⟩ := State.exists_of_fresh hfresh
      have ht : Config.Layout n ⟨env, State.declare { s with freshVertexId := id.add (.ofInt 1) } [v]⟩ :=
        h.of_store_eq rfl rfl
      exact ⟨⟨n, ht.bind name (.vertex trivial) (by simp)⟩, Nat.le_refl _⟩
    · simp [Fault.code]
  assign := by
    rintro o env s name e ⟨n, h⟩ -
    exact (h.assign_meets o name e).weaken fun f hf hc => hf _ hc rfl
  functionDecl := by
    rintro env s fn ⟨n, h⟩ -
    exact ⟨n, h.bind fn.name (.closure (fun _ _ => trivial) h.env) (by simp)⟩
  block := by
    rintro env s k ⟨m, hs⟩ ⟨n, hk⟩ hle
    have hm : s.store.length = m := hs.length
    have hn := hk.length
    have hb := hs.block hk (by omega)
    have hlen : (k.state.rollback s.nextLoc).store.length = if m < addressLimit then m else n :=
      hb.length
    refine ⟨⟨_, hb⟩, ?_⟩
    split at hlen <;> omega

theorem layout_initial : Config.initial.Layout 0 where
  bound := by omega
  keys := rfl
  next := rfl
  env := Discipline.accepts_initial _
  separate := by
    intro x y i _ hx _
    have hx' := Discipline.accepts_initial ⟨fun _ => True, fun _ => False, fun _ => True,
      fun _ => True, fun _ => True⟩ _ hx
    cases hx' with
    | loc h => exact h.elim

/-- The addresses in a value, in whatever environments its functions captured too. -/
inductive Value.Holds : Value → Number → Prop
  | loc (a : Number) : Holds (.loc a) a
  | captured {fn : Function} {env : List (String × Value)} {x : String} {v : Value} {a : Number}
      (hv : (x, v) ∈ env) (h : Holds v a) : Holds (.closure fn env) a

theorem Discipline.Accepts.address_of_holds {D : Discipline} {v : Value} {a : Number}
    (h : v.Holds a) (hv : D.Accepts v) : D.address a := by
  induction h with
  | loc a =>
    cases hv with
    | loc ha => exact ha
  | captured hmem _ ih =>
    cases hv with
    | closure _ henv => exact ih (henv _ hmem)

/-- The store holds the addresses 0, 1, … up to the next one, names reach only addresses below it,
and no two names are bound to one address. -/
structure Config.StoreSafe (k : Config) : Prop where
  keys : ∃ n : Nat, k.state.nextLoc = .ofInt n ∧ Table.keys k.state.store = addresses n
  below : ∀ x v a, (x, v) ∈ k.env → v.Holds a → a.lt k.state.nextLoc = true
  separate : ∀ x y a, (x, Value.loc a) ∈ k.env → (y, Value.loc a) ∈ k.env → x = y

/-- Without regard to how far counting goes: the store holds the first addresses, the next one is
their number as it is rounded, and names reach only addresses that the store holds. -/
structure Config.Allocated (k : Config) : Prop where
  keys : Table.keys k.state.store = addresses k.state.store.length
  next : k.state.nextLoc = .round (Rat.ofInt k.state.store.length)
  held : ∀ x v a, (x, v) ∈ k.env → v.Holds a → a ∈ Table.keys k.state.store

theorem round_count {n : Nat} (h : n ≤ addressLimit + 1) :
    Number.round (Rat.ofInt n) = .ofInt (min n addressLimit : Nat) := by
  by_cases hn : n ≤ addressLimit
  · have hmin : min n addressLimit = n := by omega
    have habs : (n : Int).natAbs ≤ 2 ^ 53 := hn
    rw [hmin, Number.round_ofInt habs]
  · obtain rfl : n = addressLimit + 1 := by omega
    have hmin : min (addressLimit + 1) addressLimit = addressLimit := by omega
    have hrest := Number.add_one_rest
    simp only [Number.ofInt, Number.add, Number.ofInt_add] at hrest
    rw [hmin]
    exact hrest

theorem Config.Layout.allocated {n : Nat} {k : Config} (h : k.Layout n) : k.Allocated where
  keys := h.length.symm ▸ h.keys
  next := by
    rw [h.next, h.length, round_count h.bound]
  held := by
    intro x v a hv ha
    rw [h.keys]
    exact Discipline.Accepts.address_of_holds ha (h.env _ hv)

theorem Config.Layout.storeSafe_iff {n : Nat} {k : Config} (h : k.Layout n) :
    k.StoreSafe ↔ k.state.store.length ≤ addressLimit := by
  have hb := h.bound
  rw [h.length]
  constructor
  · rintro ⟨⟨m, hm, hk⟩, -, -⟩
    have hmn : m = n := by
      rw [← length_addresses m, ← hk, h.keys, length_addresses]
    have hnext := h.next
    rw [hm, Number.ofInt_inj] at hnext
    omega
  · intro hn
    have hnext := h.nextLoc hn
    have hbelow : ∀ x v a, (x, v) ∈ k.env → v.Holds a → ∃ i : Nat, i < n ∧ a = .ofInt i :=
      fun x v a hv ha =>
        mem_addresses.1 (Discipline.Accepts.address_of_holds ha (h.env _ hv))
    refine ⟨⟨n, hnext, h.keys⟩, ?_, ?_⟩
    · intro x v a hv ha
      obtain ⟨i, hi, rfl⟩ := hbelow x v a hv ha
      rw [hnext, Number.lt_ofInt]
      omega
    · intro x y a hx hy
      obtain ⟨i, hi, rfl⟩ := hbelow x _ a hx (.loc a)
      exact h.separate x y i (by omega) hx hy

theorem summaries_yields {n : Nat} {s : State} (hs : (storeDiscipline n).Serves s) (notes : Notes)
    {env : Environment} (henv : (storeDiscipline n).AcceptsAll env) :
    Yields (summaries notes s env) (fun _ => True) (storeDiscipline n).Spares := by
  induction env with
  | nil => trivial
  | cons e rest ih =>
    obtain ⟨name, v⟩ := e
    have hrest := ih fun d hd => henv d (by simp [hd])
    have hv : (storeDiscipline n).Accepts v := henv (name, v) (by simp)
    cases hv with
    | loc ha => exact (hs _ ha).bind fun _ _ => hrest.bind fun _ _ => trivial
    | _ => exact hrest

theorem layout_run_meets (doc : Option Json) (o : Options) :
    Meets (run doc o) (fun _ => True) (fun f => f.code ≠ some .uninitializedAddress) := by
  apply layout_stepwise.run_meets ⟨0, layout_initial⟩
  · exact fun _ _ => trivial
  · simp [Fault.code]
  · rintro k notes ⟨n, hk⟩
    exact (summaries_yields hk.serves notes hk.env).weaken fun f hf hcode => hf _ hcode rfl

/-- In every configuration that a program passes the store is safe, exactly as long as counting in
rounded sums tells addresses apart, and no address is ever read that is not allocated. -/
theorem passed_store_safe (o : Options) (cs : List Command) :
    (∀ k, Passes o Config.initial cs k →
      k.Allocated ∧ (k.StoreSafe ↔ k.state.store.length ≤ addressLimit)) ∧
    (∀ σ a τ, evaluate o cs σ ≠ .error (.uninitializedAddress a) τ) ∧
    ∀ doc σ a τ, run doc o σ ≠ .error (.uninitializedAddress a) τ := by
  refine ⟨?_, ?_, ?_⟩
  · intro k hk
    obtain ⟨n, h⟩ := layout_stepwise.passes hk ⟨0, layout_initial⟩ fun _ _ => trivial
    exact ⟨h.allocated, h.storeSafe_iff⟩
  · intro σ a τ h
    have hm := layout_stepwise.execAll_meets o _ _ ⟨0, layout_initial⟩ cs fun _ _ => trivial
    exact hm.of_error h rfl
  · intro doc σ a τ h
    exact (layout_run_meets doc o).of_error h rfl

/-- Inside a block that declares a variable. -/
theorem passed_store_safe_block :
    let program := [Command.complexDecl "A" (.complexLit ["a"]),
      .branch (.int (.ofInt 1)) [.complexDecl "B" (.ident "A")] []]
    ∃ k, Passes Options.default Config.initial program k ∧ k.state.store.length = 2 ∧
      k.StoreSafe := by
  intro program
  have hp : ∃ k, Passes Options.default Config.initial program k ∧ k.state.store.length = 2 := by
    refine ⟨_, .next (σ := .empty) rfl (.yes (.next (σ := .empty) rfl (.start _ _))), ?_⟩
    decide +kernel
  obtain ⟨k, hk, hlen⟩ := hp
  have hle : k.state.store.length ≤ addressLimit := by
    rw [hlen]
    decide
  exact ⟨k, hk, hlen, ((passed_store_safe Options.default program).1 k hk).2.2 hle⟩

end SimplexScript
