import SimplexScript.Proofs.Language.FreshVertices
import SimplexScript.Proofs.Language.Trail

/-!
# The order of vertices

Vertices are only ever appended to the order, and the end of a block takes
none of them back. So an order goes on from every order before it, its indices
count its places, and a fresh name is a new one wherever in a run it is given
out: every vertex declared before it is still in the order.
-/

set_option autoImplicit false

namespace SimplexScript

namespace State

/-- No vertex is listed twice, and each has its place as its index. -/
structure Listed (order : Table String Number) : Prop where
  distinct : (Table.keys order).Nodup
  index : ∀ (i : Nat) (e : String × Number), order[i]? = some e → e.2 = .ofInt i

theorem Listed.register {order : Table String Number} (h : Listed order) (v : String) :
    Listed (register order v) := by
  unfold State.register
  split
  · exact h
  next hv =>
    refine ⟨?_, ?_⟩
    · rw [← Table.set_of_not_mem (mt (Table.contains_iff order v).2 hv)]
      exact Table.nodup_keys_set h.distinct _ _
    · intro i e he
      rcases Nat.lt_trichotomy i order.length with hi | rfl | hi
      · exact h.index i e (by rwa [List.getElem?_append_left hi] at he)
      · simp only [List.getElem?_concat_length, Option.some.injEq] at he
        rw [← he]
      · simp [List.getElem?_append_right (Nat.le_of_lt hi), Nat.sub_ne_zero_of_lt hi] at he

theorem register_appends (order : Table String Number) (v : String) :
    order <+: register order v := by
  unfold register
  split
  · exact List.prefix_rfl
  · exact List.prefix_append order _

theorem Listed.declare {s : State} (h : Listed s.vertexOrder) (vs : List String) :
    Listed (s.declare vs).vertexOrder := by
  have hfold : ∀ order, Listed order → Listed (vs.foldl State.register order) := by
    induction vs with
    | nil => exact fun _ h => h
    | cons v vs ih => exact fun order h => ih _ (h.register v)
  exact hfold _ h

theorem declare_appends (s : State) (vs : List String) :
    s.vertexOrder <+: (s.declare vs).vertexOrder := by
  have hfold : ∀ order : Table String Number, order <+: vs.foldl register order := by
    induction vs with
    | nil => exact fun _ => List.prefix_rfl
    | cons v vs ih => exact fun order => (register_appends order v).trans (ih _)
  exact hfold _

theorem Registers.appends {s t : State} (h : s.Registers t) : s.vertexOrder <+: t.vertexOrder := by
  induction h with
  | refl => exact List.prefix_rfl
  | same _ horder _ ih => rwa [horder]
  | declare _ vs ih => exact ih.trans (declare_appends _ vs)
  | fresh _ hu ih =>
    obtain ⟨id, -, -, rfl⟩ := exists_of_fresh hu
    exact ih.trans (declare_appends _ _)

theorem Registers.listed {s t : State} (h : s.Registers t) (hs : Listed s.vertexOrder) :
    Listed t.vertexOrder := by
  induction h with
  | refl => exact hs
  | same _ horder _ ih => rwa [horder]
  | declare _ vs ih => exact ih.declare vs
  | fresh _ hu ih =>
    obtain ⟨id, -, -, rfl⟩ := exists_of_fresh hu
    exact Listed.declare ih _

theorem mem_keys_of_appended {s t : State} (h : s.vertexOrder <+: t.vertexOrder) {v : String}
    (hv : v ∈ Table.keys s.vertexOrder) : v ∈ Table.keys t.vertexOrder :=
  (h.map Prod.fst).subset hv

end State

def Station.vertex? (x : Station) : Option String :=
  match x.command with
  | .vertexDecl name =>
    match declareVertex x.config.env x.config.state name with
    | .ok k =>
      match Table.get? k.env name with
      | some (.vertex v) => some v
      | _ => none
    | .error _ => none
  | _ => none

def boundVertices (xs : List Station) : List String := xs.filterMap Station.vertex?

theorem Station.vertex?_eq_some {x : Station} {v : String} (h : x.vertex? = some v) :
    v ∉ Table.keys x.config.state.vertexOrder ∧ v ∈ Table.keys x.reached.vertexOrder := by
  obtain ⟨k, c, again⟩ := x
  cases c with
  | vertexDecl name =>
    cases hdecl : declareVertex k.env k.state name with
    | error f => simp [vertex?, hdecl] at h
    | ok l =>
      obtain ⟨w, t, hfresh, rfl⟩ := exists_of_declareVertex hdecl
      simp only [vertex?, hdecl, Table.get?_set, if_true, Option.some.injEq] at h
      subst h
      simp only [reached, hdecl]
      refine ⟨?_, (State.mem_keys_fresh hfresh).2 (Or.inr rfl)⟩
      obtain ⟨id, rfl, hnew, -⟩ := State.exists_of_fresh hfresh
      exact hnew
  | _ => simp [vertex?] at h

theorem Station.registers (x : Station) : x.config.state.Registers x.reached := by
  obtain ⟨k, c, again⟩ := x
  cases c with
  | vertexDecl name =>
    cases hdecl : declareVertex k.env k.state name with
    | error f =>
      simp only [reached, hdecl]
      exact .refl
    | ok l =>
      obtain ⟨v, t, hfresh, rfl⟩ := exists_of_declareVertex hdecl
      simp only [reached, hdecl]
      exact State.Registers.refl.fresh hfresh
  | _ => exact .refl

namespace Chained

variable {s t : State} {xs : List Station}

theorem registers (h : Chained State.Registers s xs t) : s.Registers t := by
  induction xs generalizing s with
  | nil => exact h
  | cons x rest ih => exact (h.1.trans x.registers).trans (ih h.2)

theorem mem_registers (h : Chained State.Registers s xs t) {y : Station} (hy : y ∈ xs) :
    s.Registers y.config.state := by
  induction xs generalizing s with
  | nil => cases hy
  | cons x rest ih =>
    rcases List.mem_cons.1 hy with rfl | hy
    · exact h.1
    · exact (h.1.trans x.registers).trans (ih h.2 hy)

theorem pairwise_appends (h : Chained State.Registers s xs t) :
    xs.Pairwise fun x y => x.reached.vertexOrder <+: y.config.state.vertexOrder := by
  induction xs generalizing s with
  | nil => exact .nil
  | cons x rest ih => exact .cons (fun y hy => (h.2.mem_registers hy).appends) (ih h.2)

/-- A vertex is new where it is bound, and declared at the end. -/
theorem mem_boundVertices (h : Chained State.Registers s xs t) {v : String}
    (hv : v ∈ boundVertices xs) :
    v ∉ Table.keys s.vertexOrder ∧ v ∈ Table.keys t.vertexOrder := by
  induction xs generalizing s with
  | nil => cases hv
  | cons x rest ih =>
    obtain ⟨hx, hrest⟩ := h
    have hstart := State.mem_keys_of_appended (hx.appends (t := x.config.state)) (v := v)
    simp only [boundVertices, List.mem_filterMap, List.mem_cons, exists_eq_or_imp] at hv
    rcases hv with hv | hv
    · obtain ⟨hnew, hold⟩ := Station.vertex?_eq_some hv
      exact ⟨mt hstart hnew, State.mem_keys_of_appended hrest.registers.appends hold⟩
    · obtain ⟨hnew, hold⟩ := ih hrest (List.mem_filterMap.2 hv)
      exact ⟨mt (State.mem_keys_of_appended x.registers.appends ∘ hstart) hnew, hold⟩

theorem nodup_boundVertices (h : Chained State.Registers s xs t) : (boundVertices xs).Nodup := by
  induction xs generalizing s with
  | nil => exact List.nodup_nil
  | cons x rest ih =>
    cases hv : x.vertex? with
    | none =>
      have hrest : boundVertices (x :: rest) = boundVertices rest := by
        simp [boundVertices, hv]
      rw [hrest]
      exact ih h.2
    | some v =>
      have hcons : boundVertices (x :: rest) = v :: boundVertices rest := by
        simp [boundVertices, hv]
      rw [hcons]
      -- the rest starts in an order that holds the vertex
      exact List.nodup_cons.2
        ⟨fun hmem => (h.2.mem_boundVertices hmem).1 (Station.vertex?_eq_some hv).2, ih h.2⟩

end Chained

theorem trailAll_chained (o : Options) (env : Environment) (s : State) (cs : List Command)
    (σ : Session) : ∃ t, Chained State.Registers s (trailAll o env s cs σ) t ∧
      ∀ k τ, execAll o env s cs σ = .ok k τ → t.Registers k.state :=
  ((registers_stepwise.guided o).trailAll_tracks (fun _ mark => State.Registers.refl.rollback mark)
    env s cs ⟨trivial, fun _ _ => trivial⟩ σ).2

/-- In every configuration that commands pass from the empty state, the order lists its vertices once
with their places as indices. Commands only append to the order, wherever they start and whatever they
pass. Along a run, which is what its trace shows, the orders go on from each other, and the vertices
bound in it are pairwise distinct, each one unknown to the order in which it is bound and known ever
after. -/
theorem vertex_order_append_only (o : Options) (env : Environment) (cs : List Command) :
    (∀ k, Passes o ⟨env, State.empty⟩ cs k → State.Listed k.state.vertexOrder) ∧
    ∀ s : State,
      (∀ k, Passes o ⟨env, s⟩ cs k → s.vertexOrder <+: k.state.vertexOrder) ∧
      (o.trace = true → Logs (execAll o env s cs) (trailAll o env s cs)) ∧
      ∀ σ : Session,
        (trailAll o env s cs σ).Pairwise
          (fun x y => x.reached.vertexOrder <+: y.config.state.vertexOrder) ∧
        (boundVertices (trailAll o env s cs σ)).Nodup ∧
        (∀ x ∈ trailAll o env s cs σ, s.vertexOrder <+: x.config.state.vertexOrder ∧
          ∀ v, x.vertex? = some v → v ∉ Table.keys x.config.state.vertexOrder) ∧
        ∀ k τ, execAll o env s cs σ = .ok k τ → s.vertexOrder <+: k.state.vertexOrder ∧
          ∀ v ∈ boundVertices (trailAll o env s cs σ), v ∈ Table.keys k.state.vertexOrder := by
  have hpasses : ∀ s k, Passes o ⟨env, s⟩ cs k → s.Registers k.state := fun s k hk =>
    ((registers_stepwise.guided o).passes hk ⟨trivial, fun _ _ => trivial⟩).2
  refine ⟨?_, ?_⟩
  · intro k hk
    exact (hpasses _ k hk).listed ⟨List.nodup_nil, by simp [State.empty]⟩
  · intro s
    refine ⟨fun k hk => (hpasses s k hk).appends, fun ho => execAll_logs ho env s cs, ?_⟩
    intro σ
    obtain ⟨t, hchain, ht⟩ := trailAll_chained o env s cs σ
    refine ⟨hchain.pairwise_appends, hchain.nodup_boundVertices, ?_, ?_⟩
    · intro x hx
      exact ⟨(hchain.mem_registers hx).appends, fun v hv => (Station.vertex?_eq_some hv).1⟩
    · intro k τ hk
      refine ⟨(hchain.registers.trans (ht k τ hk)).appends, ?_⟩
      intro v hv
      exact State.mem_keys_of_appended (ht k τ hk).appends (hchain.mem_boundVertices hv).2

/-- A loop declares a vertex in each of two rounds, past a name that the program declared itself. -/
theorem vertex_order_append_only_rounds :
    let program := [Command.complexDecl "A" (.complexLit ["__v1"]),
      .loop (.opCall "less" [.opCall "num_vert" [.ident "A"] none, .int (.ofInt 3)] none)
        [.vertexDecl "x", .assign "A" (.opCall "union" [.ident "A", .ident "x"] none)]]
    let trail := trailAll Options.default Environment.initial .empty program .empty
    boundVertices trail = ["__v0", "__v2"] ∧ (boundVertices trail).Nodup ∧
      ∃ k τ, execAll Options.default Environment.initial .empty program .empty = .ok k τ ∧
        Table.keys k.state.vertexOrder = ["__v1", "__v0", "__v2"] ∧
        State.Listed k.state.vertexOrder := by
  intro program trail
  have hbound : boundVertices trail = ["__v0", "__v2"] := by decide +kernel
  have hok : (match execAll Options.default Environment.initial .empty program .empty with
    | .ok k _ => decide (Table.keys k.state.vertexOrder = ["__v1", "__v0", "__v2"])
    | .error _ _ => false) = true := by decide +kernel
  have horder := vertex_order_append_only Options.default Environment.initial program
  refine ⟨hbound, ((horder.2 .empty).2.2 .empty).2.1, ?_⟩
  clear_value program
  split at hok
  next k τ h => exact ⟨k, τ, h, of_decide_eq_true hok, horder.1 k (.of_execAll h)⟩
  next => cases hok

end SimplexScript
