import Mathlib.Algebra.Order.Ring.Unbundled.Rat
import Mathlib.Order.WithBot
import SimplexScript.Proofs.Complex.DisjointJoin
import SimplexScript.Proofs.Language.VertexOrder
import SimplexScript.Proofs.Partition.Requests

/-!
# Picking a vertex

Picking scans the vertices of a complex for the greatest index and keeps the
first vertex that has it, then builds the class of that vertex anew around its
representative. Indices place the vertices in a linear order, with everything
that an order does not mention at the bottom, and the scan finds the first
vertex that none stands above.

In the order of a run the indices count the declarations. There the scan has no
ties to break among the declared vertices: it finds the one that was declared
last, however the complex lists its vertices.
-/

set_option autoImplicit false

namespace SimplexScript

namespace Complex

variable {c : Complex} {order : Table String Number} {v : String}

def Indexed (order : Table String Number) : Prop := ∀ e ∈ order, ∃ q, e.2 = .finite q

/-- Where an order places a vertex, at the bottom if it does not mention it. -/
def placeIn (order : Table String Number) (v : String) : WithBot ℚ :=
  match Table.get? order v with
  | some (.finite q) => q
  | _ => ⊥

theorem placeIn_of_not_mem (hv : v ∉ Table.keys order) : placeIn order v = ⊥ := by
  have hget : Table.get? order v = none := by
    rw [← Option.not_isSome_iff_eq_none]
    exact mt (Table.contains_iff order v).1 hv
  rw [placeIn, hget]

def unsurpassed (order : Table String Number) (vs : List String) (v : String) : Bool :=
  vs.all fun w => !decide (placeIn order v < placeIn order w)

def foremost? (c : Complex) (order : Table String Number) : Option String :=
  c.vertices.find? (unsurpassed order c.vertices)

theorem unsurpassed_iff {vs : List String} :
    unsurpassed order vs v = true ↔ ∀ w ∈ vs, placeIn order w ≤ placeIn order v := by
  simp [unsurpassed]

theorem find?_unsurpassed {vs before after : List String} (hsplit : vs = before ++ v :: after)
    (hbefore : ∀ w ∈ before, placeIn order w < placeIn order v)
    (hafter : ∀ w ∈ after, placeIn order w ≤ placeIn order v) :
    vs.find? (unsurpassed order vs) = some v := by
  rw [List.find?_eq_some_iff_append]
  refine ⟨unsurpassed_iff.2 ?_, before, after, hsplit, ?_⟩
  · intro w hw
    rw [hsplit, List.mem_append, List.mem_cons] at hw
    rcases hw with hw | rfl | hw
    · exact (hbefore w hw).le
    · exact le_rfl
    · exact hafter w hw
  · intro w hw
    have hv : v ∈ vs := hsplit ▸ List.mem_append_right _ List.mem_cons_self
    rw [Bool.not_eq_true', ← Bool.not_eq_true, unsurpassed_iff]
    exact fun hall => (hall v hv).not_gt (hbefore w hw)

theorem indexIn_cases (h : Indexed order) (v : String) :
    (indexIn order v = .infinite true ∧ placeIn order v = ⊥) ∨
    ∃ q : ℚ, indexIn order v = .finite q ∧ placeIn order v = q := by
  cases hv : Table.get? order v with
  | none => exact Or.inl (by simp [indexIn, placeIn, hv])
  | some a =>
    obtain ⟨q, rfl⟩ : ∃ q, a = .finite q := h (v, a) (Table.mem_of_get? hv)
    exact Or.inr ⟨q, by simp [indexIn, placeIn, hv]⟩

theorem lt_indexIn (h : Indexed order) (v w : String) :
    (indexIn order v).lt (indexIn order w) = decide (placeIn order v < placeIn order w) := by
  rcases indexIn_cases h v with ⟨hv, hv'⟩ | ⟨q, hv, hv'⟩ <;>
    rcases indexIn_cases h w with ⟨hw, hw'⟩ | ⟨r, hw, hw'⟩ <;>
    simp [hv, hv', hw, hw', Number.lt]

/-- What the scan has before its result stands below it, and what it has after it not above it. -/
theorem latest_split (h : Indexed order) (best : String) (vs : List String) :
    ∃ before after, best :: vs = before ++ latest order best vs :: after ∧
      (∀ w ∈ before, placeIn order w < placeIn order (latest order best vs)) ∧
      ∀ w ∈ after, placeIn order w ≤ placeIn order (latest order best vs) := by
  induction vs generalizing best with
  | nil => exact ⟨[], [], rfl, by simp, by simp⟩
  | cons v vs ih =>
    rw [latest, lt_indexIn h]
    by_cases hlt : placeIn order best < placeIn order v
    · rw [decide_eq_true hlt, if_pos rfl]
      obtain ⟨before, after, hsplit, hbefore, hafter⟩ := ih v
      refine ⟨best :: before, after, by rw [hsplit, List.cons_append], ?_, hafter⟩
      -- the result is `v` or stands above it
      have hbest : placeIn order best < placeIn order (latest order v vs) := by
        cases before with
        | nil =>
          have hv := (List.cons.inj hsplit).1
          rwa [← hv]
        | cons w before =>
          obtain rfl := (List.cons.inj hsplit).1
          exact hlt.trans (hbefore v List.mem_cons_self)
      exact List.forall_mem_cons.2 ⟨hbest, hbefore⟩
    · rw [decide_eq_false hlt, if_neg Bool.false_ne_true]
      obtain ⟨before, after, hsplit, hbefore, hafter⟩ := ih best
      cases before with
      | nil =>
        obtain ⟨hbest, rfl⟩ := List.cons.inj hsplit
        refine ⟨[], v :: vs, by rw [← hbest, List.nil_append], by simp, ?_⟩
        rw [← hbest] at hafter ⊢
        exact List.forall_mem_cons.2 ⟨not_lt.1 hlt, hafter⟩
      | cons w before =>
        -- `v` stands no higher than `best`, which stands below the result
        obtain ⟨rfl, htail⟩ := List.cons.inj hsplit
        obtain ⟨hbest, hrest⟩ := List.forall_mem_cons.1 hbefore
        refine ⟨best :: v :: before, after, congrArg (best :: v :: ·) htail, ?_, hafter⟩
        exact List.forall_mem_cons.2
          ⟨hbest, List.forall_mem_cons.2 ⟨(not_lt.1 hlt).trans_lt hbest, hrest⟩⟩

theorem latestVertex?_eq_foremost? (h : Indexed order) :
    c.latestVertex? order = c.foremost? order := by
  unfold latestVertex? foremost?
  cases c.vertices with
  | nil => rfl
  | cons best vs =>
    obtain ⟨before, after, hsplit, hbefore, hafter⟩ := latest_split h best vs
    exact (find?_unsurpassed hsplit hbefore hafter).symm

/-- A vertex that stands above all others is found wherever it is listed. -/
theorem foremost?_eq_some (hv : v ∈ c.vertices)
    (h : ∀ w ∈ c.vertices, w ≠ v → placeIn order w < placeIn order v) :
    c.foremost? order = some v := by
  obtain ⟨before, after, hsplit, hnew⟩ := List.eq_append_cons_of_mem hv
  apply find?_unsurpassed hsplit
  · intro w hw
    exact h w (hsplit ▸ List.mem_append_left _ hw) fun he => hnew (he ▸ hw)
  · intro w hw
    have hmem : w ∈ c.vertices :=
      hsplit ▸ List.mem_append_right _ (List.mem_cons_of_mem _ hw)
    by_cases hwv : w = v
    · rw [hwv]
    · exact (h w hmem hwv).le

/-- A class of a partition as a complex of one point: the representative alone is listed, and every
member of the class is a name of it. -/
structure IsClassPoint (p : Partition String) (r : String) (d : Complex) : Prop where
  maximal : d.maximal = [[r]]
  nodes : d.partition.nodes.Perm (p.classOf r).1
  equivalent : ∀ x ∈ d.partition.nodes, ∀ y ∈ d.partition.nodes,
    (d.partition.equivalent x y).1 = true
  representative : ∀ x ∈ d.partition.nodes, (d.partition.find x).1 = r

theorem isClassPoint_classPoint {p : Partition String} (hp : p.Forest) (r : String) :
    IsClassPoint p r (classPoint p r) := by
  rw [classPoint_eq]
  have hstar := star_forest r (p.block r)
  refine ⟨maximal_ofSimplices_single _ _, ?_, ?_, ?_⟩
  · rw [Partition.classOf_fst hp]
    apply (List.perm_ext_iff_of_nodup hstar.nodup (Partition.nodup_block hp r)).2
    intro x
    refine mem_nodes_star.trans ⟨?_, Or.inr⟩
    rintro (rfl | hx)
    · exact Partition.mem_block_self p x
    · exact hx
  · intro x hx y hy
    exact (Partition.equivalent_fst hstar x y).trans
      (decide_eq_true ((root_star hx).trans (root_star hy).symm))
  · intro x hx
    exact (Partition.find_fst hstar x).trans (root_star hx)

theorem pick_eq (h : Indexed order) (hv : c.foremost? order = some v) :
    c.pick order = .ok (classPoint (c.partition.add v) ((c.partition.add v).root v)) := by
  rw [← latestVertex?_eq_foremost? h] at hv
  simp only [pick, pickFrom, hv]
  rfl

theorem isClassPoint_add {p : Partition String} (hp : p.Forest) (v : String) :
    IsClassPoint p (p.find v).1 (classPoint (p.add v) ((p.add v).root v)) := by
  have heq : classPoint (p.add v) ((p.add v).root v) = classPoint p (p.find v).1 := by
    rw [Partition.find_fst hp, Partition.root_add hp, classPoint_eq, classPoint_eq,
      Partition.block_add hp]
  rw [heq]
  exact isClassPoint_classPoint hp _

theorem pick_eq_error_iff : c.pick order = .error .emptyComplex ↔ c.vertices = [] := by
  unfold pick pickFrom latestVertex?
  cases c.vertices with
  | nil => simp [Except.map]
  | cons v vs => simp [Except.map]

theorem exists_foremost? (h : Indexed order) (hc : c.vertices ≠ []) :
    ∃ v, c.foremost? order = some v := by
  rw [← latestVertex?_eq_foremost? h, latestVertex?]
  cases hvs : c.vertices with
  | nil => exact absurd hvs hc
  | cons v vs => exact ⟨_, rfl⟩

end Complex

namespace State

variable {order : Table String Number}

def lastDeclared? (order : Table String Number) (vs : List String) : Option String :=
  (Table.keys order).reverse.find? fun v => decide (v ∈ vs)

theorem lastDeclared?_eq_some {vs : List String} {v : String}
    (h : lastDeclared? order vs = some v) :
    v ∈ vs ∧ ∃ before after, Table.keys order = before ++ v :: after ∧ ∀ w ∈ vs, w ∉ after := by
  obtain ⟨hv, after, before, hsplit, hafter⟩ := List.find?_eq_some_iff_append.1 h
  refine ⟨of_decide_eq_true hv, before.reverse, after.reverse, ?_, ?_⟩
  · rw [← List.reverse_reverse (Table.keys order), hsplit]
    simp
  · intro w hw hmem
    simpa [hw] using hafter w (List.mem_reverse.1 hmem)

theorem exists_lastDeclared? {vs : List String} (h : ∃ w ∈ vs, w ∈ Table.keys order) :
    ∃ v, lastDeclared? order vs = some v := by
  obtain ⟨w, hw, hmem⟩ := h
  rw [← Option.isSome_iff_exists, lastDeclared?, List.find?_isSome]
  exact ⟨w, List.mem_reverse.2 hmem, decide_eq_true hw⟩

namespace Listed

theorem indexed (h : Listed order) : Complex.Indexed order := by
  intro e he
  obtain ⟨i, hi⟩ := List.mem_iff_getElem?.1 he
  exact ⟨_, h.index i e hi⟩

theorem placeIn_eq (h : Listed order) {before after : List String} {v : String}
    (hsplit : Table.keys order = before ++ v :: after) :
    Complex.placeIn order v = ((before.length : ℚ) : WithBot ℚ) := by
  have hkey : (Table.keys order)[before.length]? = some v := by simp [hsplit]
  rw [Table.keys, List.getElem?_map] at hkey
  obtain ⟨e, he, rfl⟩ := Option.map_eq_some_iff.1 hkey
  have hget : Table.get? order e.1 = some e.2 :=
    (Table.get?_eq_some_iff h.distinct).2 (List.mem_of_getElem? he)
  rw [Complex.placeIn, hget, h.index _ e he]
  rfl

theorem placeIn_lt (h : Listed order) {before after : List String} {v w : String}
    (hsplit : Table.keys order = before ++ v :: after) (hw : w ∉ after) (hne : w ≠ v) :
    Complex.placeIn order w < Complex.placeIn order v := by
  rw [h.placeIn_eq hsplit]
  by_cases hmem : w ∈ Table.keys order
  · have hbefore : w ∈ before := by
      rw [hsplit, List.mem_append, List.mem_cons] at hmem
      exact hmem.resolve_right (not_or.2 ⟨hne, hw⟩)
    obtain ⟨front, back, rfl⟩ := List.append_of_mem hbefore
    have hfront : Table.keys order = front ++ w :: (back ++ v :: after) := by simp [hsplit]
    rw [h.placeIn_eq hfront, WithBot.coe_lt_coe]
    exact_mod_cast (by simp : front.length < (front ++ w :: back).length)
  · rw [Complex.placeIn_of_not_mem hmem]
    exact WithBot.bot_lt_coe _

theorem mem_of_appended (h : Listed order) {earlier : Table String Number}
    (happend : earlier <+: order) {before after : List String} {v w : String}
    (hsplit : Table.keys order = before ++ v :: after) (hv : v ∈ Table.keys earlier)
    (hw : w ∈ before) : w ∈ Table.keys earlier := by
  have hkeys : Table.keys earlier <+: Table.keys order := happend.map Prod.fst
  have hv' : before ++ [v] <+: Table.keys order := ⟨after, by simp [hsplit]⟩
  rcases List.prefix_or_prefix_of_prefix hkeys hv' with hle | hle
  · rcases List.prefix_concat_iff.1 hle with heq | hle
    · exact heq ▸ List.mem_append_left _ hw
    · -- the vertex would be listed a second time
      have hdistinct := h.distinct
      rw [hsplit, List.nodup_append] at hdistinct
      exact absurd rfl (hdistinct.2.2 v (hle.subset hv) v List.mem_cons_self)
  · exact hle.subset (List.mem_append_left _ hw)

end Listed

end State

theorem Passes.registers {o : Options} {k l : Config} {cs : List Command} (h : Passes o k cs l) :
    k.state.Registers l.state :=
  ((registers_stepwise.guided o).passes h ⟨trivial, fun _ _ => trivial⟩).2

theorem Passes.listed {o : Options} {env : Environment} {k : Config} {cs : List Command}
    (h : Passes o ⟨env, .empty⟩ cs k) : State.Listed k.state.vertexOrder :=
  h.registers.listed ⟨List.nodup_nil, by simp [State.empty]⟩

/-- Picking fails on a complex without vertices and on no other. From any other it takes the first
vertex that none stands above, and gives the representative of that vertex as a point, named by its
whole class. In every configuration that commands pass from the empty state, the vertex taken from a
complex with a declared vertex is the one declared last: it stands above all others of the complex,
wherever it is declared those of them that ever are have been declared too, and it is taken from
every complex with the same vertices, in whatever order they are listed. -/
theorem pick_takes_latest_class :
    (∀ (c : Complex) (order : Table String Number), c.partition.Forest → Complex.Indexed order →
      (c.pick order = .error .emptyComplex ↔ c.vertices = []) ∧
      (c.vertices ≠ [] → ∃ v d, c.foremost? order = some v ∧ c.pick order = .ok d ∧
        Complex.IsClassPoint c.partition (c.partition.find v).1 d)) ∧
    ∀ (o : Options) (env : Environment) (cs cs' : List Command) (k l : Config),
      Passes o ⟨env, .empty⟩ cs k → Passes o k cs' l →
      Complex.Indexed l.state.vertexOrder ∧
      ∀ c : Complex, (∃ w ∈ c.vertices, w ∈ Table.keys l.state.vertexOrder) →
        ∃ v, State.lastDeclared? l.state.vertexOrder c.vertices = some v ∧
          (∀ w ∈ c.vertices, w ≠ v →
            Complex.placeIn l.state.vertexOrder w < Complex.placeIn l.state.vertexOrder v) ∧
          (v ∈ Table.keys k.state.vertexOrder → ∀ w ∈ c.vertices,
            w ∈ Table.keys l.state.vertexOrder → w ∈ Table.keys k.state.vertexOrder) ∧
          ∀ d : Complex, (∀ x, x ∈ d.vertices ↔ x ∈ c.vertices) →
            d.foremost? l.state.vertexOrder = some v ∧
            (d.partition = c.partition →
              d.pick l.state.vertexOrder = c.pick l.state.vertexOrder) := by
  refine ⟨?_, ?_⟩
  · intro c order hp h
    refine ⟨Complex.pick_eq_error_iff, ?_⟩
    intro hc
    obtain ⟨v, hv⟩ := Complex.exists_foremost? h hc
    exact ⟨v, _, hv, Complex.pick_eq h hv, Complex.isClassPoint_add hp v⟩
  · intro o env cs cs' k l hk hl
    have hlisted := hl.registers.listed hk.listed
    refine ⟨hlisted.indexed, ?_⟩
    intro c hc
    obtain ⟨v, hlast⟩ := State.exists_lastDeclared? hc
    obtain ⟨hv, before, after, hsplit, hafter⟩ := State.lastDeclared?_eq_some hlast
    have htop : ∀ w ∈ c.vertices, w ≠ v →
        Complex.placeIn l.state.vertexOrder w < Complex.placeIn l.state.vertexOrder v :=
      fun w hw hne => hlisted.placeIn_lt hsplit (hafter w hw) hne
    refine ⟨v, hlast, htop, ?_, ?_⟩
    · intro hvk w hw hwl
      by_cases hne : w = v
      · exact hne ▸ hvk
      · rw [hsplit, List.mem_append, List.mem_cons] at hwl
        exact hlisted.mem_of_appended hl.registers.appends hsplit hvk
          (hwl.resolve_right (not_or.2 ⟨hne, hafter w hw⟩))
    · intro d hd
      have hfirst : ∀ e : Complex, (∀ x, x ∈ e.vertices ↔ x ∈ c.vertices) →
          e.foremost? l.state.vertexOrder = some v := fun e he =>
        Complex.foremost?_eq_some ((he v).2 hv) fun w hw => htop w ((he w).1 hw)
      refine ⟨hfirst d hd, ?_⟩
      intro hpart
      rw [Complex.pick_eq hlisted.indexed (hfirst d hd),
        Complex.pick_eq hlisted.indexed (hfirst c fun _ => Iff.rfl), hpart]

/-- Of two vertices with the greatest index the first is taken, under the representative of its
class, though another name of the class has a greater index. In the order of a run the vertex
declared last is taken, listed anywhere. -/
theorem pick_takes_latest_class_glued :
    let p := (Partition.empty.union "m" "b").2.add "a"
    let c : Complex := ⟨[["x", "b"], ["a"]], p, none⟩
    let order := [("a", Number.ofInt 3), ("b", .ofInt 3), ("m", .ofInt 5)]
    let first := [Command.complexDecl "A" (.complexLit ["b", "m"])]
    let second := [Command.complexDecl "B" (.complexLit ["a"])]
    (p.Forest ∧ Complex.Indexed order ∧ c.vertices = ["x", "b", "a"] ∧
      c.foremost? order = some "b" ∧ ∃ d, c.pick order = .ok d ∧ Complex.IsClassPoint p "m" d) ∧
    ∃ k l, Passes Options.default ⟨Environment.initial, .empty⟩ first k ∧
      Passes Options.default k second l ∧ Table.keys l.state.vertexOrder = ["b", "m", "a"] ∧
      ∀ d : Complex, (∀ x, x ∈ d.vertices ↔ x ∈ c.vertices) →
        d.foremost? l.state.vertexOrder = some "a" := by
  intro p c order first second
  have hvertices : c.vertices = ["x", "b", "a"] := by decide +kernel
  refine ⟨?_, ?_⟩
  · have hp : p.Forest :=
      Partition.add_forest (Partition.union_joined Partition.empty_forest "m" "b").1.forest "a"
    have horder : Complex.Indexed order := by
      intro e he
      simp only [order, List.mem_cons, List.not_mem_nil, or_false] at he
      rcases he with rfl | rfl | rfl <;> exact ⟨_, rfl⟩
    have hforemost : c.foremost? order = some "b" := by decide +kernel
    have hroot : (p.find "b").1 = "m" := by decide +kernel
    have hne : c.vertices ≠ [] := by simp [hvertices]
    obtain ⟨v, d, hv, hd, hpoint⟩ := (pick_takes_latest_class.1 c order hp horder).2 hne
    obtain rfl : "b" = v := Option.some.inj (hforemost.symm.trans hv)
    exact ⟨hp, horder, hvertices, hforemost, d, hd, hroot ▸ hpoint⟩
  · have hok : resultPasses (fun k => resultPasses
        (fun l => Table.keys l.state.vertexOrder == ["b", "m", "a"])
        (execAll Options.default k.env k.state second .empty))
        (execAll Options.default Environment.initial .empty first .empty) = true := by
      decide +kernel
    clear_value first second
    obtain ⟨k, _, hk, hrun⟩ := exists_of_resultPasses hok
    obtain ⟨l, _, hl, hkeys⟩ := exists_of_resultPasses hrun
    replace hkeys := eq_of_beq hkeys
    have hk' : Passes Options.default ⟨Environment.initial, .empty⟩ first k := .of_execAll hk
    have hl' : Passes Options.default k second l := .of_execAll hl
    refine ⟨k, l, hk', hl', hkeys, ?_⟩
    have hdeclared : ∃ w ∈ c.vertices, w ∈ Table.keys l.state.vertexOrder :=
      ⟨"b", by simp [hvertices], by simp [hkeys]⟩
    obtain ⟨v, hlast, -, -, hall⟩ :=
      (pick_takes_latest_class.2 _ _ _ _ k l hk' hl').2 c hdeclared
    have ha : State.lastDeclared? l.state.vertexOrder c.vertices = some "a" := by
      rw [State.lastDeclared?, hkeys, hvertices]
      decide
    obtain rfl : "a" = v := Option.some.inj (ha.symm.trans hlast)
    exact fun d hd => (hall d hd).1

end SimplexScript
