import SimplexScript.Proofs.Complex.Gluing
import SimplexScript.Proofs.Partition.Relinking

/-!
# Names in gluings

Any member of a class may name it in a gluing. Two mappings that name the same
classes position by position pass or fail the same checks, and the joins they
ask for leave forests that differ in their paths only. So not only the points
and simplices agree, but every listing: simplices, nodes and classes come out
under the same representatives and in the same order.
-/

set_option autoImplicit false

namespace SimplexScript.Complex

def Renamed (k l : Complex) (m m' : Mapping) : Prop :=
  List.Forall₂ (fun e d => k.partition.Akin e.1 d.1 ∧ l.partition.Akin e.2 d.2) m m'

variable {k l : Complex} {m m' : Mapping}

theorem Names.of_akin {v w : String} (h : k.partition.Akin v w) : k.Names v ↔ k.Names w := by
  rw [Names, Names, h.root]
  exact and_congr_left' (iff_of_true h.left h.right)

theorem Renamed.resolves (h : Renamed k l m m') : Resolves k l m ↔ Resolves k l m' := by
  induction h with
  | nil => exact Iff.rfl
  | cons he _ ih =>
    have hhead := and_congr (Names.of_akin he.1) (Names.of_akin he.2)
    simp only [Resolves, List.forall_mem_cons] at ih ⊢
    exact and_congr hhead ih

theorem Renamed.classPairs (h : Renamed k l m m') :
    Complex.classPairs k l m = Complex.classPairs k l m' := by
  induction h with
  | nil => rfl
  | cons he _ ih =>
    rw [Complex.classPairs, Complex.classPairs, List.map_cons, List.map_cons, he.1.root, he.2.root]
    exact congrArg _ ih

theorem Renamed.joinPairs (hk : k.partition.Forest) (hl : l.partition.Forest)
    (h : Renamed k l m m') :
    Partition.Relinked (joinPairs (k.partition.merge l.partition) m)
      (joinPairs (k.partition.merge l.partition) m') := by
  have hforest := Partition.merge_forest k.partition l.partition
  have hmem : ∀ {x}, x ∈ k.partition.nodes ∨ x ∈ l.partition.nodes →
      x ∈ (k.partition.merge l.partition).nodes := (Partition.mem_nodes_merge hk hl).2
  refine (Partition.Relinked.refl hforest).unions hforest (h.imp ?_)
  rintro e d ⟨hfrom, hto⟩
  constructor
  · exact ⟨hmem (Or.inl hfrom.left), hmem (Or.inl hfrom.right),
      Partition.root_merge_of_left hk _ hfrom.root⟩
  · exact ⟨hmem (Or.inr hto.left), hmem (Or.inr hto.right),
      Partition.root_merge_of_right _ hl hto.root⟩

theorem canonicalAll_relinked {operation : String} {p q : Partition String}
    (h : Partition.Relinked p q) (ss : List Simplex) :
    canonicalAll operation q ss = canonicalAll operation p ss := by
  have himage : image q = image p := by
    funext s
    rw [image, image, funext h.root]
  induction ss with
  | nil => rfl
  | cons s ss ih => rw [canonicalAll, canonicalAll, canonical, canonical, himage, ih]

theorem quotient_relinked (operation : String) {p q : Partition String} (hp : p.Forest)
    (h : Partition.Relinked p q) (ss : List Simplex) :
    (∃ c, FailsWith (quotient operation p ss) c ∧ FailsWith (quotient operation q ss) c) ∨
    ∃ r r', quotient operation p ss = .ok r ∧ quotient operation q ss = .ok r' ∧
      r.maximal = r'.maximal ∧ r.partition.Forest ∧
      Partition.Relinked r.partition r'.partition := by
  rw [quotient, quotient, canonicalAll_relinked h]
  cases hc : canonicalAll operation p ss with
  | error f =>
    obtain ⟨s, t, rfl⟩ := canonicalAll_eq_error hc
    exact Or.inl ⟨.degenerateSimplex, ⟨_, rfl, rfl⟩, _, rfl, rfl⟩
  | ok ts =>
    exact Or.inr ⟨_, _, rfl, rfl, rfl, Partition.addAll_forest hp _, h.addAll hp _⟩

/-- Gluings along mappings that name the same classes fail with the same code, or both succeed and
list the same simplices, the same nodes and the same classes under the same representatives. -/
theorem glue_under_other_names (k l : Complex) (hk : k.partition.Forest)
    (hl : l.partition.Forest) (m m' : Mapping) (h : Renamed k l m m') :
    (∃ c, FailsWith (k.glue l m) c ∧ FailsWith (k.glue l m') c) ∨
    ∃ r r', k.glue l m = .ok r ∧ k.glue l m' = .ok r' ∧ r.maximal = r'.maximal ∧
      r.partition.nodes = r'.partition.nodes ∧
      r.partition.classes.1 = r'.partition.classes.1 := by
  have hglue := glue_cases hk hl m
  have hglue' := glue_cases hk hl m'
  rw [← h.resolves, ← h.classPairs] at hglue'
  by_cases hres : Resolves k l m
  · by_cases hone : OneToOne (Complex.classPairs k l m)
    · rw [glue_eq_quotient hres hone,
        glue_eq_quotient (h.resolves.1 hres) (h.classPairs ▸ hone)]
      rcases quotient_relinked "glue" (joinPairs_forest k l m) (h.joinPairs hk hl)
        (k.maximal ++ l.maximal) with hfail | ⟨r, r', hr, hr', hmax, hforest, hlinks⟩
      · exact Or.inl hfail
      · exact Or.inr ⟨r, r', hr, hr', hmax, hlinks.nodes.symm, (hlinks.classes_eq hforest).symm⟩
    · simp only [hres, hone, not_true, not_false_iff, true_and, false_and, false_or,
        or_false] at hglue hglue'
      exact Or.inl ⟨_, hglue, hglue'⟩
  · simp only [hres, not_false_iff, true_and, false_and, or_false] at hglue hglue'
    exact Or.inl ⟨_, hglue, hglue'⟩

/-- Two edges that meet in ends with two names each, and a mapping that no choice of names saves. -/
theorem glue_under_other_names_ends :
    let k := ofSimplices [["a", "b"]] ((Partition.empty.addAll ["a", "b"]).union "b" "c").2
    let l := ofSimplices [["x", "y"]] ((Partition.empty.addAll ["x", "y"]).union "x" "w").2
    (∃ r r', k.glue l [("b", "x")] = .ok r ∧ k.glue l [("c", "w")] = .ok r' ∧
      r.maximal = r'.maximal ∧ r.partition.nodes = r'.partition.nodes ∧
      r.partition.classes.1 = r'.partition.classes.1) ∧
    ∃ c, FailsWith (k.glue l [("b", "x"), ("b", "y")]) c ∧
      FailsWith (k.glue l [("c", "w"), ("b", "y")]) c := by
  intro k l
  have hk : k.partition.Forest :=
    (Partition.union_joined (Partition.addAll_forest Partition.empty_forest _) "b" "c").1.forest
  have hl : l.partition.Forest :=
    (Partition.union_joined (Partition.addAll_forest Partition.empty_forest _) "x" "w").1.forest
  have hbc : k.partition.Akin "b" "c" :=
    ⟨by decide +kernel, by decide +kernel, by decide +kernel⟩
  have hxw : l.partition.Akin "x" "w" :=
    ⟨by decide +kernel, by decide +kernel, by decide +kernel⟩
  have hy : "y" ∈ l.partition.nodes := by decide +kernel
  have hok : (k.glue l [("b", "x")]).isOk = true := by decide +kernel
  have htwo : (k.glue l [("b", "x"), ("b", "y")]).isOk = false := by decide +kernel
  clear_value k l
  have hone : Renamed k l [("b", "x")] [("c", "w")] := .cons ⟨hbc, hxw⟩ .nil
  have hboth : Renamed k l [("b", "x"), ("b", "y")] [("c", "w"), ("b", "y")] :=
    .cons ⟨hbc, hxw⟩ (.cons ⟨⟨hbc.left, hbc.left, rfl⟩, hy, hy, rfl⟩ .nil)
  constructor
  · obtain ⟨q, hq⟩ := exists_of_isOk hok
    rcases glue_under_other_names k l hk hl _ _ hone with ⟨c, hf, -⟩ | hsame
    · exact absurd hq (hf.ne_ok q)
    · exact hsame
  · rcases glue_under_other_names k l hk hl _ _ hboth with hfail | ⟨r, r', hr, -⟩
    · exact hfail
    · rw [hr] at htwo
      cases htwo

end SimplexScript.Complex
