import Mathlib.Data.List.Nodup
import Mathlib.Data.List.Perm.Subperm
import SimplexScript.Proofs.Complex.Names
import SimplexScript.Proofs.Language.Growth
import SimplexScript.Proofs.Number.Counting
import SimplexScript.Proofs.Number.Digits

/-!
# Fresh vertices

A fresh vertex gets the first numbered name that was never declared. Names in
stored complexes are declared or written in literals of the program, and an
assignment stores a complex without declaring anything. So a fresh name meets
a stored one exactly if the program wrote the first undeclared numbered name
itself and stored it undeclared. Numbers are counted up to 2 ^ 53: only an order
of more names than that can leave none to give out.
-/

set_option autoImplicit false

namespace SimplexScript

namespace State

def freshName (z : Int) : String := "__v" ++ toString z

theorem numberName_ofInt {z : Int} (hz : z.natAbs ≤ 2 ^ 53) :
    numberName (.ofInt z) = freshName z := by
  rw [numberName, Number.text_ofInt hz, freshName]

theorem toString_nat_inj {m n : Nat} (h : toString m = toString n) : m = n := by
  have hdigits := congrArg (fun t : String => Nat.ofDigitChars 10 t.toList 0) h
  simpa only [Nat.toString_eq_repr, Nat.toList_repr,
    Nat.ofDigitChars_toDigits (by decide : 1 < 10) (by decide)] using hdigits

theorem toString_nat_ne_neg (m n : Nat) : toString m ≠ "-" ++ toString n := by
  intro h
  have hmem : '-' ∈ (toString m).toList := by
    rw [h]
    simp
  rw [Nat.toString_eq_repr, Nat.toList_repr] at hmem
  exact absurd (Nat.isDigit_of_mem_toDigits (by decide) (by decide) hmem) (by decide)

theorem freshName_inj {y z : Int} (h : freshName y = freshName z) : y = z := by
  have htext : toString y = toString z := (String.append_right_inj _).1 h
  cases y with
  | ofNat m =>
    cases z with
    | ofNat n => exact congrArg Int.ofNat (toString_nat_inj htext)
    | negSucc n => exact absurd htext (toString_nat_ne_neg m (n + 1))
  | negSucc m =>
    cases z with
    | ofNat n => exact absurd htext.symm (toString_nat_ne_neg n (m + 1))
    | negSucc n =>
      have hsucc : m + 1 = n + 1 := toString_nat_inj ((String.append_right_inj _).1 htext)
      rw [Nat.succ.inj hsucc]

structure FirstUndeclared (s : State) (n : Nat) : Prop where
  counted : n ≤ 2 ^ 53
  undeclared : freshName n ∉ Table.keys s.vertexOrder
  declared : ∀ j : Nat, j < n → freshName j ∈ Table.keys s.vertexOrder

theorem FirstUndeclared.unique {s : State} {m n : Nat} (hm : s.FirstUndeclared m)
    (hn : s.FirstUndeclared n) : m = n := by
  rcases Nat.lt_trichotomy m n with h | h | h
  · exact absurd (hn.declared m h) hm.undeclared
  · exact h
  · exact absurd (hm.declared n h) hn.undeclared

theorem counter_rests : (Number.ofInt (2 ^ 53)).add (.ofInt 1) = .ofInt (2 ^ 53) :=
  Number.add_one_rest

section Search

variable {taken : Number → Bool} {tries : Nat} {z : Int}

theorem firstFree_eq_some {id : Number} (hlow : -2 ^ 53 ≤ z) (hz : z ≤ 2 ^ 53)
    (h : firstFree taken tries (.ofInt z) = some id) :
    ∃ r, id = .ofInt r ∧ z ≤ r ∧ r ≤ 2 ^ 53 ∧ r < z + tries ∧
      ∀ j, z ≤ j → j < r → taken (.ofInt j) = true := by
  induction tries generalizing z with
  | zero => cases h
  | succ tries ih =>
    rw [firstFree] at h
    split at h
    next ht =>
      rcases Int.lt_or_eq_of_le hz with hlt | rfl
      · rw [Number.add_one_int hlow hlt] at h
        obtain ⟨r, hid, hle, hup, htries, hall⟩ := ih (by omega) (by omega) h
        refine ⟨r, hid, by omega, hup, by omega, ?_⟩
        intro j hj hjr
        rcases Int.lt_or_eq_of_le hj with hj | rfl
        · exact hall j hj hjr
        · exact ht
      · -- the counter rests, so the number that it finds is this one
        rw [counter_rests] at h
        obtain ⟨r, hid, hle, hup, -, hall⟩ := ih hlow hz h
        exact ⟨r, hid, hle, hup, by omega, hall⟩
    next =>
      refine ⟨z, (Option.some.inj h).symm, by omega, hz, by omega, ?_⟩
      intro j hj hjz
      omega

theorem firstFree_eq_none (hlow : -2 ^ 53 ≤ z) (h : firstFree taken tries (.ofInt z) = none)
    {j : Int} (hj : z ≤ j) (hup : j ≤ 2 ^ 53) (htries : j < z + tries) :
    taken (.ofInt j) = true := by
  induction tries generalizing z with
  | zero => omega
  | succ tries ih =>
    rw [firstFree] at h
    split at h
    next ht =>
      rcases Int.lt_or_eq_of_le hj with hlt | rfl
      · rw [Number.add_one_int hlow (by omega)] at h
        exact ih (by omega) h (by omega) (by omega)
      · exact ht
    next => cases h

end Search

theorem length_of_declared {order : Table String Number} {z : Int} {n : Nat}
    (h : ∀ j, z ≤ j → j < z + n → freshName j ∈ Table.keys order) : n ≤ order.length := by
  have hnodup : ((List.range n).map fun i => freshName (z + (i : Nat))).Nodup := by
    apply List.Nodup.map _ List.nodup_range
    intro i j hij
    have := freshName_inj hij
    omega
  have hsub : ((List.range n).map fun i => freshName (z + (i : Nat))) ⊆ Table.keys order := by
    intro x hx
    obtain ⟨i, hi, rfl⟩ := List.mem_map.1 hx
    have hi' := List.mem_range.1 hi
    exact h _ (by omega) (by omega)
  have hlen := (List.subperm_of_subset hnodup hsub).length_le
  simpa only [List.length_map, List.length_range, Table.keys] using hlen

/-- The search of a counter that can count: it gives out the first number that is not taken, or all
numbers that it reaches are taken. -/
theorem fresh_cases {s : State} {z : Int} (hlow : -2 ^ 53 ≤ z) (hz : z ≤ 2 ^ 53)
    (hid : s.freshVertexId = .ofInt z) :
    (∃ r, z ≤ r ∧ r ≤ 2 ^ 53 ∧ r ≤ z + s.vertexOrder.length ∧
      (∀ j, z ≤ j → j < r → freshName j ∈ Table.keys s.vertexOrder) ∧
      freshName r ∉ Table.keys s.vertexOrder ∧
      s.fresh = .ok (freshName r,
        declare { s with freshVertexId := (Number.ofInt r).add (.ofInt 1) } [freshName r])) ∨
    (s.fresh = .error .unending ∧
      ∀ j, z ≤ j → j ≤ 2 ^ 53 → freshName j ∈ Table.keys s.vertexOrder) := by
  have htaken : ∀ j : Int, z ≤ j → j ≤ 2 ^ 53 →
      (Table.contains s.vertexOrder (numberName (.ofInt j)) = true ↔
        freshName j ∈ Table.keys s.vertexOrder) := by
    intro j hj hup
    rw [Table.contains_iff, numberName_ofInt (by omega)]
  unfold fresh
  dsimp only
  rw [hid]
  split
  next id hfirst =>
    obtain ⟨r, rfl, hle, hup, htries, hall⟩ := firstFree_eq_some hlow hz hfirst
    have hname : numberName (.ofInt r) = freshName r := numberName_ofInt (by omega)
    have hnew : freshName r ∉ Table.keys s.vertexOrder := by
      rw [← htaken r hle hup, firstFree_free hfirst]
      exact Bool.false_ne_true
    refine .inl ⟨r, hle, hup, by omega, ?_, hnew, by rw [hname]⟩
    exact fun j hj hjr => (htaken j hj (by omega)).1 (hall j hj hjr)
  next hnone =>
    have hall : ∀ j, z ≤ j → j ≤ 2 ^ 53 → j < z + (s.vertexOrder.length + 1 : Nat) →
        freshName j ∈ Table.keys s.vertexOrder :=
      fun j hj hup htries => (htaken j hj hup).1 (firstFree_eq_none hlow hnone hj hup htries)
    refine .inr ⟨rfl, ?_⟩
    intro j hj hup
    apply hall j hj hup
    by_contra hlong
    -- otherwise the order would hold one name more than it has entries
    have hlen := length_of_declared fun i hi htries => hall i hi (by omega) htries
    omega

/-- Names were given out in order: those with smaller numbers are declared. -/
def Numbered (s : State) : Prop :=
  ∃ m : Nat, m ≤ 2 ^ 53 ∧ s.freshVertexId = .ofInt m ∧
    ∀ j : Nat, j < m → freshName j ∈ Table.keys s.vertexOrder

theorem numbered_empty : State.empty.Numbered :=
  ⟨0, Nat.zero_le _, rfl, fun j hj => absurd hj (Nat.not_lt_zero j)⟩

theorem Numbered.fresh_cases {s : State} (h : s.Numbered) :
    (s.fresh = .error .unending ∧
      ∀ j : Nat, j ≤ 2 ^ 53 → freshName j ∈ Table.keys s.vertexOrder) ∨
    ∃ n t, s.FirstUndeclared n ∧ s.fresh = .ok (freshName n, t) ∧ t.Numbered := by
  obtain ⟨m, hm, hid, hall⟩ := h
  rcases State.fresh_cases (by omega) (by omega) hid with
    ⟨r, hle, hup, -, hskipped, hnew, hfresh⟩ | ⟨hfresh, htaken⟩
  · obtain ⟨n, rfl⟩ : ∃ n : Nat, r = n := ⟨r.toNat, by omega⟩
    have hbelow : ∀ j : Nat, j < n → freshName j ∈ Table.keys s.vertexOrder := by
      intro j hj
      rcases Nat.lt_or_ge j m with hlt | hge
      · exact hall j hlt
      · exact hskipped j (by omega) (by omega)
    refine .inr ⟨n, _, ⟨by omega, hnew, hbelow⟩, hfresh, ?_⟩
    have hnext := Number.add_one_min n
    rw [Nat.min_eq_left (by omega)] at hnext
    refine ⟨min (n + 1) (2 ^ 53), by omega, hnext, ?_⟩
    intro j hj
    rw [mem_keys_declare, List.mem_singleton]
    rcases Nat.lt_or_ge j n with hlt | hge
    · exact .inl (hbelow j hlt)
    · obtain rfl : j = n := by omega
      exact .inr rfl
  · refine .inl ⟨hfresh, ?_⟩
    intro j hj
    rcases Nat.lt_or_ge j m with hlt | hge
    · exact hall j hlt
    · exact htaken j (by omega) (by omega)

theorem Numbered.grow {s t : State} (h : s.Numbered) (hid : t.freshVertexId = s.freshVertexId)
    (hst : s.Extends t) : t.Numbered := by
  obtain ⟨m, hm, hm', hall⟩ := h
  exact ⟨m, hm, hid.trans hm', fun j hj => hst _ (hall j hj)⟩

theorem Numbered.fresh {s t : State} {v : String} (h : s.Numbered) (ht : s.fresh = .ok (v, t)) :
    t.Numbered := by
  rcases h.fresh_cases with ⟨hend, -⟩ | ⟨n, u, -, hu, hnum⟩
  · cases hend.symm.trans ht
  · cases hu.symm.trans ht
    exact hnum

theorem rollback_freshVertexId (s : State) (mark : Number) :
    (s.rollback mark).freshVertexId = s.freshVertexId := by
  unfold rollback
  split <;> rfl

/-- The vertices of one state are those of another after some declarations. The store plays no part
in this. -/
inductive Registers (s : State) : State → Prop
  | refl : Registers s s
  | same {t u : State} (h : Registers s t) (horder : u.vertexOrder = t.vertexOrder)
      (hid : u.freshVertexId = t.freshVertexId) : Registers s u
  | declare {t : State} (h : Registers s t) (vs : List String) : Registers s (t.declare vs)
  | fresh {t u : State} {v : String} (h : Registers s t) (hu : t.fresh = .ok (v, u)) :
      Registers s u

theorem Registers.trans {s t u : State} (hst : s.Registers t) (htu : t.Registers u) :
    s.Registers u := by
  induction htu with
  | refl => exact hst
  | same _ horder hid ih => exact ih.same horder hid
  | declare _ vs ih => exact ih.declare vs
  | fresh _ hu ih => exact ih.fresh hu

theorem Registers.rollback {s t : State} (h : s.Registers t) (mark : Number) :
    s.Registers (t.rollback mark) :=
  h.same (rollback_vertexOrder t mark) (rollback_freshVertexId t mark)

theorem Registers.numbered {s t : State} (h : s.Registers t) (hs : s.Numbered) : t.Numbered := by
  induction h with
  | refl => exact hs
  | same _ horder hid ih => exact Numbered.grow ih hid fun v hv => horder ▸ hv
  | declare _ vs ih => exact Numbered.grow ih rfl fun v hv => mem_keys_declare.2 (Or.inl hv)
  | fresh _ hu ih => exact Numbered.fresh ih hu

end State

theorem registers_stepwise : Stepwise (fun _ => True) (fun _ => True) State.Registers
    (fun _ => True) where
  refl _ := .refl
  trans _ _ _ hst htu := hst.trans htu
  unknown := trivial
  rounds _ := trivial
  condition _ _ _ _ _ _ := Meets.any _
  complexDecl o env s name e _ _ := by
    apply (Meets.any (evalComplex o env s e _)).bind
    intro c _
    exact .pure ⟨trivial, (State.Registers.refl.declare c.vertices).same rfl rfl⟩
  vertexDecl env s name _ :=
    declareVertex_yields (fun _ _ ht => ⟨trivial, State.Registers.refl.fresh ht⟩) trivial
  assign o env s name e _ _ := by
    apply Meets.bind (Meets.any _)
    intro v _
    cases v with
    | loc a =>
      apply (Meets.any (evalComplex o env s e _)).bind
      intro c _
      apply (Meets.lift (s.update_yields a c trivial)).bind
      rintro t rfl
      exact .pure ⟨trivial, State.Registers.refl.same rfl rfl⟩
    | _ => exact .throw trivial
  functionDecl _ _ _ _ _ := trivial
  block env s k _ _ h := ⟨trivial, h.rollback _⟩

theorem numbered_stepwise : Stepwise (fun _ => True) (fun k => k.state.Numbered)
    State.Registers (fun _ => True) :=
  registers_stepwise.carries fun _ _ h => h.numbered

/-- Complexes over names that were declared or are written in literals. -/
def namesGrowth (written : String → Prop) : Growth where
  complex s c := c.Over fun x => x ∈ Table.keys s.vertexOrder ∨ written x
  vertex s v := v ∈ Table.keys s.vertexOrder
  literal vs := ∀ v ∈ vs, written v
  excluded _ := False

theorem namesGrowth_lawful (written : String → Prop) (s : State) :
    ((namesGrowth written).discipline s).Lawful where
  guards _ h := h.elim
  view n _ h := h.view n
  point _ hv := Complex.over_point (Or.inl hv)
  literal _ _ hvs h := Complex.over_ofVertices (fun v hv => Or.inr (hvs v hv)) h
  union k l hk hl :=
    Complex.union_yields (fun _ _ _ _ _ h => h)
      (Complex.quotient_yields (fun _ _ _ _ h => h) fun _ =>
        Complex.over_quotient (Partition.merge_forest _ _) (hk.merge hl) (hk.sides hl))
  join k l hk hl :=
    Complex.quotient_yields (fun _ _ _ _ h => h) fun _ =>
      Complex.over_quotient (Partition.merge_forest _ _) (hk.merge hl) (hk.spanned hl)
  glue k l m hk hl :=
    Complex.glue_yields (fun _ _ _ _ h => h) (fun _ _ _ h => h)
      (fun _ _ => Complex.checkConsistency_yields fun _ _ _ _ _ h => h)
      fun hm => Complex.quotient_yields (fun _ _ _ _ h => h) fun _ =>
        Complex.over_quotient (Partition.unions_forest (Partition.merge_forest _ _) m)
          (hk.glued hl hm) (hk.sides hl)
  pick c order hc := by
    apply Complex.pick_yields
    · exact fun _ _ _ h => h
    · intro v hv
      obtain ⟨heq, hmem⟩ := hc.picked hv
      rw [heq]
      exact Complex.over_classPoint hc hmem

theorem namesGrowth_kept (written : String → Prop) : (namesGrowth written).Kept where
  lawful := namesGrowth_lawful written
  access h := h
  complex s t hst _ h := by
    apply h.mono
    rintro x (hx | hx)
    · exact Or.inl (hst x hx)
    · exact Or.inr hx
  vertex s t hst v hv := hst v hv
  fresh _ _ _ h := (State.mem_keys_fresh h).2 (Or.inr rfl)

def Config.VertexFresh (k : Config) : Prop :=
  ∀ v t, k.state.fresh = .ok (v, t) → ∀ e ∈ k.state.store,
    (∀ s ∈ e.2.maximal, v ∉ s) ∧ v ∉ e.2.partition.nodes

def State.Stored (s : State) (x : String) : Prop :=
  ∃ e ∈ s.store, (∃ t ∈ e.2.maximal, x ∈ t) ∨ x ∈ e.2.partition.nodes

theorem Config.vertexFresh_iff {k : Config} {v : String} {t : State}
    (hfresh : k.state.fresh = .ok (v, t)) : k.VertexFresh ↔ ¬ k.state.Stored v := by
  unfold VertexFresh State.Stored
  constructor
  · rintro h ⟨e, he, ⟨s, hs, hx⟩ | hx⟩
    · exact (h v t hfresh e he).1 s hs hx
    · exact (h v t hfresh e he).2 hx
  · intro h w u hw e he
    cases hfresh.symm.trans hw
    exact ⟨fun s hs hx => h ⟨e, he, Or.inl ⟨s, hs, hx⟩⟩, fun hx => h ⟨e, he, Or.inr hx⟩⟩

theorem stored_declared_or_written {written : String → Prop} {k : Config}
    (h : (namesGrowth written).Holds k) {x : String} (hx : k.state.Stored x) :
    x ∈ Table.keys k.state.vertexOrder ∨ written x := by
  obtain ⟨e, he, ⟨t, ht, hx⟩ | hx⟩ := hx
  · exact (h.store e he).names x ((h.store e he).mem_of_simplex ht hx)
  · exact (h.store e he).names x hx

/-- A vertex declared in a configuration that a program passes gets the first numbered name that was
never declared, if an order can hold no more than 2 ^ 53 names, and the name is fresh exactly if the
program did not itself write it in a literal and store it undeclared. A program that writes no
numbered name only declares fresh vertices. -/
theorem passed_vertex_fresh_iff (o : Options) (cs : List Command) (k : Config)
    (hk : Passes o Config.initial cs k) :
    ((k.state.fresh = .error .unending ∧ 2 ^ 53 < k.state.vertexOrder.length) ∨
      ∃ n t, k.state.FirstUndeclared n ∧ k.state.fresh = .ok (State.freshName n, t)) ∧
    (k.VertexFresh ↔ ∀ n, k.state.FirstUndeclared n →
      (∃ vs ∈ Command.literalsOfAll cs, State.freshName n ∈ vs) →
        ¬ k.state.Stored (State.freshName n)) ∧
    ((∀ vs ∈ Command.literalsOfAll cs, ∀ n : Nat, State.freshName n ∉ vs) → k.VertexFresh) := by
  let written := fun x => ∃ vs ∈ Command.literalsOfAll cs, x ∈ vs
  have hnames := (namesGrowth_kept written).stepwise.passes hk (namesGrowth written).holds_initial
    fun vs hvs v hv => ⟨vs, hvs, hv⟩
  have hnum : k.state.Numbered :=
    numbered_stepwise.passes hk State.numbered_empty fun _ _ => trivial
  have hcases := hnum.fresh_cases
  have hiff : k.VertexFresh ↔ ∀ n, k.state.FirstUndeclared n → written (State.freshName n) →
      ¬ k.state.Stored (State.freshName n) := by
    rcases hcases with ⟨hend, hall⟩ | ⟨n, t, hn, hfresh, -⟩
    · refine ⟨fun _ m hm => absurd (hall m hm.counted) hm.undeclared, ?_⟩
      intro _ v t hfresh
      cases hend.symm.trans hfresh
    · rw [Config.vertexFresh_iff hfresh]
      constructor
      · intro h m hm _
        rw [hm.unique hn]
        exact h
      · intro h hstored
        rcases stored_declared_or_written hnames hstored with hdecl | hw
        · exact hn.undeclared hdecl
        · exact h n hn hw hstored
  refine ⟨?_, hiff, ?_⟩
  · rcases hcases with ⟨hend, hall⟩ | ⟨n, t, hn, hfresh, -⟩
    · have hlen : 2 ^ 53 + 1 ≤ k.state.vertexOrder.length := by
        apply State.length_of_declared (z := 0)
        intro j hj hlt
        obtain ⟨i, rfl⟩ : ∃ i : Nat, j = i := ⟨j.toNat, by omega⟩
        exact hall i (by omega)
      exact .inl ⟨hend, by omega⟩
    · exact .inr ⟨n, t, hn, hfresh⟩
  · intro hlit
    apply hiff.2
    rintro m - ⟨vs, hvs, hm⟩
    exact absurd hm (hlit vs hvs m)

/-- A program that declares the first numbered name itself. -/
theorem passed_vertex_fresh_iff_declared :
    let program := [Command.complexDecl "A" (.complexLit ["__v0"]), .vertexDecl "x"]
    ∃ k, Passes Options.default Config.initial program k ∧
      k.state.fresh.map Prod.fst = .ok "__v2" ∧ k.VertexFresh := by
  intro program
  have hok : (match execAll Options.default Environment.initial .empty program .empty with
    | .ok k _ => decide (k.state.fresh.map Prod.fst = .ok "__v2") &&
        decide ("__v0" ∈ Table.keys k.state.vertexOrder)
    | .error _ _ => false) = true := by decide +kernel
  split at hok
  next k τ hrun =>
    rw [Bool.and_eq_true, decide_eq_true_eq, decide_eq_true_eq] at hok
    have hk : Passes Options.default Config.initial program k := .of_execAll hrun
    refine ⟨k, hk, hok.1, ?_⟩
    apply (passed_vertex_fresh_iff Options.default program k hk).2.1.2
    rintro n hn ⟨vs, hvs, hnvs⟩
    obtain rfl : vs = ["__v0"] := by
      simpa [program, Command.literalsOfAll, Command.literals, Expr.literals] using hvs
    have hzero : State.freshName n = "__v0" := List.mem_singleton.1 hnvs
    exact absurd (hzero ▸ hok.2) hn.undeclared
  next => cases hok

/-- What an assignment stores is not declared, and a vertex declared next gets its name. -/
theorem assigned_vertex_not_fresh :
    let program := [Command.complexDecl "A" (.complexLit ["a"]),
      .assign "A" (.complexLit ["__v0"])]
    ∃ k, Passes Options.default Config.initial program k ∧ ¬ k.VertexFresh := by
  intro program
  have hok : (match execAll Options.default Environment.initial .empty program .empty with
    | .ok k _ => decide (k.state.fresh.map Prod.fst = .ok "__v0") &&
        k.state.store.any fun e => decide ("__v0" ∈ e.2.partition.nodes)
    | .error _ _ => false) = true := by decide +kernel
  split at hok
  next k τ hrun =>
    rw [Bool.and_eq_true, decide_eq_true_eq, List.any_eq_true] at hok
    obtain ⟨hname, e, he, hmem⟩ := hok
    refine ⟨k, .of_execAll hrun, ?_⟩
    intro h
    cases hfresh : k.state.fresh with
    | ok r =>
      rw [hfresh] at hname
      have hv : r.1 = "__v0" := Except.ok.inj hname
      exact (h r.1 r.2 hfresh e he).2 (hv ▸ of_decide_eq_true hmem)
    | error f =>
      rw [hfresh] at hname
      cases hname
  next => cases hok

end SimplexScript
