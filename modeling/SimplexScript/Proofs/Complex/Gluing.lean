import SimplexScript.Proofs.Complex.Union

/-!
# Gluings

A gluing makes its checks in turn: every mapped name must stand for a vertex
of its side, the classes must be paired one to one, and no simplex may have
two vertices that become one point. Between the last two stands a check that
no pairs are identified on one side only; it says of names what was already
checked of classes, so it is idle. What passes is the quotient by the least
equivalence that contains both relations and the mapped pairs.
-/

set_option autoImplicit false

namespace SimplexScript.Complex

def FailsWith {α : Type} (x : Except Fault α) (c : Code) : Prop :=
  ∃ f, x = .error f ∧ f.code = some c

theorem FailsWith.ne_ok {α : Type} {x : Except Fault α} {c : Code} (h : FailsWith x c) (a : α) :
    x ≠ .ok a := by
  obtain ⟨f, rfl, -⟩ := h
  intro he
  cases he

theorem exists_of_isOk {α : Type} {x : Except Fault α} (h : x.isOk) : ∃ a, x = .ok a := by
  cases x with
  | ok a => exact ⟨a, rfl⟩
  | error f => cases h

/-- A name that stands for a vertex: it is known, and its representative is in a simplex. -/
def Names (k : Complex) (v : String) : Prop :=
  v ∈ k.partition.nodes ∧ ∃ s ∈ k.maximal, k.partition.root v ∈ s

def Resolves (k l : Complex) (m : Mapping) : Prop := ∀ e ∈ m, k.Names e.1 ∧ l.Names e.2

def classPairs (k l : Complex) (m : Mapping) : Mapping :=
  m.map fun e => (k.partition.root e.1, l.partition.root e.2)

def OneToOne (m : Mapping) : Prop := ∀ e ∈ m, ∀ d ∈ m, e.1 = d.1 ↔ e.2 = d.2

instance (k : Complex) (v : String) : Decidable (k.Names v) :=
  inferInstanceAs (Decidable (v ∈ k.partition.nodes ∧ ∃ s ∈ k.maximal, k.partition.root v ∈ s))

instance (k l : Complex) (m : Mapping) : Decidable (Resolves k l m) :=
  inferInstanceAs (Decidable (∀ e ∈ m, k.Names e.1 ∧ l.Names e.2))

instance (m : Mapping) : Decidable (OneToOne m) :=
  inferInstanceAs (Decidable (∀ e ∈ m, ∀ d ∈ m, e.1 = d.1 ↔ e.2 = d.2))

/-- The least equivalence that contains both relations and the mapped pairs. -/
def Glued (k l : Complex) (m : Mapping) : String → String → Prop :=
  Relation.EqvGen fun x y => k.identifies x y = true ∨ l.identifies x y = true ∨ (x, y) ∈ m

def Collapses (R : String → String → Prop) (s : Simplex) : Prop :=
  ∃ (i j : Nat) (v w : String), i < j ∧ s[i]? = some v ∧ s[j]? = some w ∧ R v w

def Degenerates (k l : Complex) (m : Mapping) : Prop :=
  ∃ s ∈ k.maximal ++ l.maximal, Collapses (Glued k l m) s

/-- The simplices of a complex are the listed ones written in its representatives: none shrinks,
and those that become the same are listed once. -/
structure Represents (r : Complex) (ss : List Simplex) : Prop where
  representative : ∀ v ∈ r.vertices, v ∈ r.partition.nodes ∧ r.partition.root v = v
  rigid : ∀ s ∈ ss, (s.map r.partition.root).Nodup
  image : ∀ s ∈ ss, ∃ t ∈ r.maximal, t.Perm (s.map r.partition.root)
  source : ∀ t ∈ r.maximal, ∃ s ∈ ss, t.Perm (s.map r.partition.root)
  apart : r.maximal.Pairwise fun s t => ¬ s.Perm t

/-- What a gluing builds: all names and vertices, the generated equivalence, and the simplices of
both complexes over the new representatives. -/
structure IsGluing (k l : Complex) (m : Mapping) (r : Complex) : Prop
    extends Represents r (k.maximal ++ l.maximal) where
  forest : r.partition.Forest
  nodes : ∀ x, x ∈ r.partition.nodes ↔
    x ∈ k.partition.nodes ∨ x ∈ l.partition.nodes ∨ x ∈ k.vertices ∨ x ∈ l.vertices
  glued : ∀ x y, r.identifies x y = true ↔ Glued k l m x y

section Checks

variable {k l : Complex} {m : Mapping}

theorem resolve_cases (k : Complex) (operand : Operand) (v : String) :
    (k.Names v ∧ resolve k operand v = .ok (k.partition.root v)) ∨
    (¬ k.Names v ∧ resolve k operand v = .error (.vertexNotFound v operand)) := by
  have hcheck : (k.partition.contains v && k.hasVertex (k.partition.root v)) = true ↔
      k.Names v := by
    simp [Names, hasVertex, Partition.contains_iff]
  by_cases h : k.Names v
  · exact Or.inl ⟨h, if_pos (hcheck.2 h)⟩
  · exact Or.inr ⟨h, if_neg (mt hcheck.1 h)⟩

theorem resolveAll_cases (k l : Complex) (m : Mapping) :
    (Resolves k l m ∧ resolveAll k l m = .ok (classPairs k l m)) ∨
    (¬ Resolves k l m ∧ FailsWith (resolveAll k l m) .vertexNotFound) := by
  induction m with
  | nil => exact Or.inl ⟨by simp [Resolves], rfl⟩
  | cons e rest ih =>
    obtain ⟨a, b⟩ := e
    have hcons : Resolves k l ((a, b) :: rest) ↔
        (k.Names a ∧ l.Names b) ∧ Resolves k l rest := by
      simp [Resolves]
    rw [hcons, resolveAll]
    rcases resolve_cases k .first a with ⟨ha, hra⟩ | ⟨ha, hra⟩
    · rcases resolve_cases l .second b with ⟨hb, hrb⟩ | ⟨hb, hrb⟩
      · rw [hra, hrb]
        rcases ih with ⟨hrest, heq⟩ | ⟨hrest, f, heq, hcode⟩
        · rw [heq]
          exact Or.inl ⟨⟨⟨ha, hb⟩, hrest⟩, rfl⟩
        · rw [heq]
          exact Or.inr ⟨fun h => hrest h.2, f, rfl, hcode⟩
      · rw [hra, hrb]
        exact Or.inr ⟨fun h => hb h.1.2, _, rfl, rfl⟩
    · rw [hra]
      exact Or.inr ⟨fun h => ha h.1.1, _, rfl, rfl⟩

theorem agrees_set {t : Table String String} {e : String × String} {rest : Mapping}
    {f g : String × String → String} (he : ∀ d ∈ rest, f e = f d → g e = g d)
    (ht : ∀ d ∈ rest, ∀ y, Table.get? t (f d) = some y → y = g d) :
    ∀ d ∈ rest, ∀ y, Table.get? (Table.set t (f e) (g e)) (f d) = some y → y = g d := by
  intro d hd y hy
  rw [Table.get?_set] at hy
  split at hy
  next hed => exact (Option.some.inj hy).symm.trans (he d hd hed)
  next => exact ht d hd y hy

theorem checkClasses_of_oneToOne {forward backward : Table String String} (h : OneToOne m)
    (hf : ∀ e ∈ m, ∀ t, Table.get? forward e.1 = some t → t = e.2)
    (hb : ∀ e ∈ m, ∀ s, Table.get? backward e.2 = some s → s = e.1) :
    checkClasses forward backward m = .ok () := by
  induction m generalizing forward backward with
  | nil => rfl
  | cons e rest ih =>
    obtain ⟨a, b⟩ := e
    have hfa : (Table.get? forward a).filter (fun t => !decide (t = b)) = none := by
      rw [Option.filter_eq_none_iff]
      intro t ht
      simpa using hf (a, b) (by simp) t ht
    have hbb : (Table.get? backward b).filter (fun s => !decide (s = a)) = none := by
      rw [Option.filter_eq_none_iff]
      intro s hs
      simpa using hb (a, b) (by simp) s hs
    have hhead : ∀ d ∈ rest, a = d.1 ↔ b = d.2 := fun d hd => h (a, b) (by simp) d (by simp [hd])
    rw [checkClasses, hfa, hbb]
    apply ih fun d hd d' hd' => h d (by simp [hd]) d' (by simp [hd'])
    · exact agrees_set (e := (a, b)) (f := Prod.fst) (g := Prod.snd)
        (fun d hd => (hhead d hd).1) fun d hd => hf d (by simp [hd])
    · exact agrees_set (e := (a, b)) (f := Prod.snd) (g := Prod.fst)
        (fun d hd => (hhead d hd).2) fun d hd => hb d (by simp [hd])

theorem checkClasses_cases (m : Mapping) :
    (OneToOne m ∧ checkClasses [] [] m = .ok ()) ∨
    (¬ OneToOne m ∧ FailsWith (checkClasses [] [] m) .conflictingMapping) := by
  have hfault : Yields (checkClasses [] [] m) (fun _ => True)
      fun f => f.code = some .conflictingMapping := checkClasses_fault (fun _ => rfl) [] [] m
  have hone : OneToOne m → checkClasses [] [] m = .ok () := fun h =>
    checkClasses_of_oneToOne h (by simp [Table.get?]) (by simp [Table.get?])
  cases hc : checkClasses [] [] m with
  | ok u => exact Or.inl ⟨(checkClasses_ok hc).2.2, rfl⟩
  | error f =>
    rw [hc] at hfault hone
    refine Or.inr ⟨?_, f, rfl, hfault⟩
    intro h
    cases hone h

theorem checkConsistency_of_oneToOne (hres : Resolves k l m)
    (hone : OneToOne (classPairs k l m)) : checkConsistency k l m = .ok () := by
  have hclasses : checkClasses [] [] (classPairs k l m) = .ok () :=
    checkClasses_of_oneToOne hone (by simp [Table.get?]) (by simp [Table.get?])
  unfold checkConsistency
  dsimp only
  rw [find?_inconsistent_eq_none hclasses fun e he => ⟨(hres e he).1.1, (hres e he).2.1⟩]

theorem glue_eq_quotient (hres : Resolves k l m) (hone : OneToOne (classPairs k l m)) :
    k.glue l m = quotient "glue" (joinPairs (k.partition.merge l.partition) m)
      (k.maximal ++ l.maximal) := by
  rcases resolveAll_cases k l m with ⟨-, hr⟩ | ⟨hr, -⟩
  · rcases checkClasses_cases (classPairs k l m) with ⟨-, hc⟩ | ⟨hc, -⟩
    · rw [glue, hr]
      simp only [bind, Except.bind, hc, checkConsistency_of_oneToOne hres hone]
    · exact absurd hone hc
  · exact absurd hres hr

end Checks

section Relation

variable {k l : Complex} {m : Mapping}

theorem root_joinPairs (hk : k.partition.Forest) (hl : l.partition.Forest) (x y : String) :
    (joinPairs (k.partition.merge l.partition) m).root x =
      (joinPairs (k.partition.merge l.partition) m).root y ↔ Glued k l m x y := by
  have hforest := Partition.merge_forest k.partition l.partition
  have hequiv : Equivalence (Glued k l m) := Relation.EqvGen.is_equivalence _
  rw [joinPairs_eq_unions]
  constructor
  · apply Partition.root_unions_least hforest hequiv
    · intro a b hab
      refine Partition.root_merge_least hk hl hequiv ?_ ?_ hab
      · exact fun a b h => .rel a b (Or.inl ((Partition.same_iff hk).2 h))
      · exact fun a b h => .rel a b (Or.inr (Or.inl ((Partition.same_iff hl).2 h)))
    · exact fun e he => .rel e.1 e.2 (Or.inr (Or.inr he))
  · apply Partition.root_eq_of_eqvGen
    rintro a b (h | h | h)
    · apply Partition.root_unions_mono hforest
      exact Partition.root_merge_of_left hk _ ((Partition.same_iff hk).1 h)
    · apply Partition.root_unions_mono hforest
      exact Partition.root_merge_of_right _ hl ((Partition.same_iff hl).1 h)
    · exact Partition.root_unions_pair hforest h

theorem nodup_map_root {p : Partition String} {R : String → String → Prop}
    (h : ∀ x y, p.root x = p.root y ↔ R x y) (s : Simplex) :
    (s.map p.root).Nodup ↔ ¬ Collapses R s := by
  rw [List.Nodup, List.pairwise_map, List.pairwise_iff_getElem]
  constructor
  · rintro hs ⟨i, j, v, w, hij, hv, hw, hvw⟩
    obtain ⟨hi, rfl⟩ := List.getElem?_eq_some_iff.1 hv
    obtain ⟨hj, rfl⟩ := List.getElem?_eq_some_iff.1 hw
    exact hs i j hi hj hij ((h _ _).2 hvw)
  · intro hs i j hi hj hij he
    exact hs ⟨i, j, s[i], s[j], hij, List.getElem?_eq_getElem hi, List.getElem?_eq_getElem hj,
      (h _ _).1 he⟩

theorem quotient_represents {operation : String} {p : Partition String} (hp : p.Forest)
    {ss : List Simplex} {r : Complex} (h : quotient operation p ss = .ok r) :
    r.partition = p.addAll ss.flatten ∧ r.Represents ss := by
  rcases quotient_cases operation p ss with ⟨hnodup, heq⟩ | ⟨-, f, heq, -⟩
  · obtain rfl : _ = r := Except.ok.inj (heq.symm.trans h)
    have hroot : (p.addAll ss.flatten).root = p.root := funext (Partition.root_addAll hp _)
    have himage : ∀ s ∈ ss, image p s = s.map (p.addAll ss.flatten).root := by
      intro s hs
      rw [hroot, image_eq_map (hnodup s hs)]
    refine ⟨rfl, ?_, ?_, ?_, ?_, pairwise_ofSimplices _ _⟩
    · intro v hv
      obtain ⟨t, ht, hvt⟩ := mem_vertices_ofSimplices.1 hv
      obtain ⟨s, hs, rfl⟩ := List.mem_map.1 ht
      obtain ⟨w, hw, rfl⟩ := mem_image.1 hvt
      have hforest := Partition.addAll_forest hp ss.flatten
      have hmem : w ∈ (p.addAll ss.flatten).nodes :=
        Partition.mem_nodes_addAll.2 (Or.inr (List.mem_flatten.2 ⟨s, hs, hw⟩))
      rw [← hroot]
      exact ⟨Partition.root_mem hforest hmem, Partition.root_root hforest w⟩
    · intro s hs
      exact hroot.symm ▸ hnodup s hs
    · intro s hs
      obtain ⟨t, ht, hperm⟩ := exists_perm_ofSimplices (p := p.addAll ss.flatten)
        (List.mem_map.2 ⟨s, hs, rfl⟩ : image p s ∈ ss.map (image p))
      exact ⟨t, ht, himage s hs ▸ hperm⟩
    · intro t ht
      obtain ⟨s, hs, rfl⟩ := List.mem_map.1 (mem_of_mem_distinctBy ht)
      exact ⟨s, hs, himage s hs ▸ List.Perm.refl _⟩
  · rw [h] at heq
    cases heq

theorem mem_nodes_joinPairs (hk : k.partition.Forest) (hl : l.partition.Forest)
    (hres : Resolves k l m) (x : String) :
    x ∈ (joinPairs (k.partition.merge l.partition) m).nodes ↔
      x ∈ k.partition.nodes ∨ x ∈ l.partition.nodes := by
  rw [joinPairs_eq_unions, Partition.mem_nodes_unions (Partition.merge_forest _ _),
    Partition.mem_nodes_merge hk hl]
  constructor
  · rintro (h | ⟨e, he, rfl | rfl⟩)
    · exact h
    · exact Or.inl (hres e he).1.1
    · exact Or.inr (hres e he).2.1
  · exact Or.inl

theorem joinPairs_forest (k l : Complex) (m : Mapping) :
    (joinPairs (k.partition.merge l.partition) m).Forest :=
  Partition.unions_forest (Partition.merge_forest _ _) m

theorem isGluing_of_quotient (hk : k.partition.Forest) (hl : l.partition.Forest)
    (hres : Resolves k l m) {r : Complex} (h : quotient "glue"
      (joinPairs (k.partition.merge l.partition) m) (k.maximal ++ l.maximal) = .ok r) :
    IsGluing k l m r := by
  have hjoined := joinPairs_forest k l m
  obtain ⟨hpartition, hrep⟩ := quotient_represents hjoined h
  have hforest : r.partition.Forest := hpartition ▸ Partition.addAll_forest hjoined _
  refine ⟨hrep, hforest, ?_, ?_⟩
  · intro x
    rw [hpartition, Partition.mem_nodes_addAll, mem_nodes_joinPairs hk hl hres,
      List.flatten_append, List.mem_append, vertices, vertices, mem_distinct, mem_distinct,
      or_assoc]
  · intro x y
    rw [identifies, Partition.same_iff hforest, hpartition, Partition.root_addAll hjoined,
      Partition.root_addAll hjoined, root_joinPairs hk hl]

/-- How a gluing ends: with the first check that fails, or with what it is to build. -/
theorem glue_cases (hk : k.partition.Forest) (hl : l.partition.Forest) (m : Mapping) :
    (¬ Resolves k l m ∧ FailsWith (k.glue l m) .vertexNotFound) ∨
    (Resolves k l m ∧ ¬ OneToOne (classPairs k l m) ∧
      FailsWith (k.glue l m) .conflictingMapping) ∨
    (Resolves k l m ∧ OneToOne (classPairs k l m) ∧ Degenerates k l m ∧
      FailsWith (k.glue l m) .degenerateSimplex) ∨
    (Resolves k l m ∧ OneToOne (classPairs k l m) ∧ ¬ Degenerates k l m ∧
      ∃ r, k.glue l m = .ok r ∧ IsGluing k l m r) := by
  have hrigid : (∀ s ∈ k.maximal ++ l.maximal,
      (s.map (joinPairs (k.partition.merge l.partition) m).root).Nodup) ↔
      ¬ Degenerates k l m := by
    simp only [nodup_map_root (root_joinPairs hk hl), Degenerates, not_exists, not_and]
  rcases resolveAll_cases k l m with ⟨hres, hr⟩ | ⟨hres, f, hr, hcode⟩
  · rcases checkClasses_cases (classPairs k l m) with ⟨hone, -⟩ | ⟨hone, f, hc, hcode⟩
    -- past both checks only the quotient is left, and it can only shrink a simplex
    · rw [glue_eq_quotient hres hone]
      rcases quotient_cases "glue" (joinPairs (k.partition.merge l.partition) m)
        (k.maximal ++ l.maximal) with ⟨hnodup, heq⟩ | ⟨hnodup, hf⟩
      · exact Or.inr (Or.inr (Or.inr ⟨hres, hone, hrigid.1 hnodup, _, heq,
          isGluing_of_quotient hk hl hres heq⟩))
      · exact Or.inr (Or.inr (Or.inl ⟨hres, hone, not_not.1 (mt hrigid.2 hnodup), hf⟩))
    · refine Or.inr (Or.inl ⟨hres, hone, f, ?_, hcode⟩)
      rw [glue, hr]
      simp only [bind, Except.bind, hc]
  · refine Or.inl ⟨hres, f, ?_, hcode⟩
    rw [glue, hr]
    rfl

theorem IsGluing.root_eq_iff {r : Complex} (h : IsGluing k l m r) (x y : String) :
    r.partition.root x = r.partition.root y ↔ Glued k l m x y := by
  rw [← h.glued, identifies, Partition.same_iff h.forest]

theorem IsGluing.mem_vertices_iff {r : Complex} (h : IsGluing k l m r) (v : String) :
    v ∈ r.vertices ↔ ∃ w, (w ∈ k.vertices ∨ w ∈ l.vertices) ∧ r.partition.root w = v := by
  have hside : ∀ w, w ∈ k.vertices ∨ w ∈ l.vertices ↔ ∃ s ∈ k.maximal ++ l.maximal, w ∈ s := by
    intro w
    simp only [mem_vertices, List.mem_append, or_and_right, exists_or]
  simp only [hside]
  rw [mem_vertices]
  constructor
  · rintro ⟨t, ht, hv⟩
    obtain ⟨s, hs, hperm⟩ := h.source t ht
    obtain ⟨w, hw, he⟩ := List.mem_map.1 (hperm.mem_iff.1 hv)
    exact ⟨w, ⟨s, hs, hw⟩, he⟩
  · rintro ⟨w, ⟨s, hs, hw⟩, rfl⟩
    obtain ⟨t, ht, hperm⟩ := h.image s hs
    exact ⟨t, ht, hperm.mem_iff.2 (List.mem_map_of_mem hw)⟩

end Relation

/-- A gluing fails on a name that stands for no vertex; if there is none, on classes that are not
paired one to one; if they are, on a simplex with two positions that become one point; and on
nothing else. Its check of the pairs of names is idle. -/
theorem glue_fails_exactly (k l : Complex) (hk : k.partition.Forest) (hl : l.partition.Forest)
    (m : Mapping) :
    (FailsWith (k.glue l m) .vertexNotFound ↔ ∃ e ∈ m, ¬ k.Names e.1 ∨ ¬ l.Names e.2) ∧
    (FailsWith (k.glue l m) .conflictingMapping ↔
      Resolves k l m ∧ ¬ OneToOne (classPairs k l m)) ∧
    (FailsWith (k.glue l m) .degenerateSimplex ↔
      Resolves k l m ∧ OneToOne (classPairs k l m) ∧ Degenerates k l m) ∧
    ((∃ r, k.glue l m = .ok r) ↔
      Resolves k l m ∧ OneToOne (classPairs k l m) ∧ ¬ Degenerates k l m) ∧
    (Resolves k l m → OneToOne (classPairs k l m) → checkConsistency k l m = .ok ()) ∧
    ¬ FailsWith (k.glue l m) .incompatibleIdentification := by
  have hunresolved : (∃ e ∈ m, ¬ k.Names e.1 ∨ ¬ l.Names e.2) ↔ ¬ Resolves k l m := by
    simp only [Resolves, not_forall, not_and_or, exists_prop]
  have hidle : Resolves k l m → OneToOne (classPairs k l m) → checkConsistency k l m = .ok () :=
    checkConsistency_of_oneToOne
  rw [hunresolved]
  rcases glue_cases hk hl m with ⟨hres, f, heq, hcode⟩ | ⟨hres, hone, f, heq, hcode⟩ |
    ⟨hres, hone, hdeg, f, heq, hcode⟩ | ⟨hres, hone, hdeg, r, heq, -⟩
  · simp [FailsWith, heq, hcode, hres]
  · simp [FailsWith, heq, hcode, hres, hone]
  · simp [FailsWith, heq, hcode, hres, hone, hdeg, hidle]
  · simp [FailsWith, heq, hres, hone, hdeg, hidle]

/-- A path of two edges, one end of which has a second name, and an edge that shares its middle: a
mapping for each ending. -/
theorem glue_fails_exactly_path :
    let k := ofSimplices [["a", "b"], ["b", "c"]]
      ((Partition.empty.addAll ["a", "b", "c", "z"]).union "c" "d").2
    let l := ofSimplices [["b", "y"]] (Partition.empty.addAll ["b", "y"])
    FailsWith (k.glue l [("z", "y")]) .vertexNotFound ∧
    FailsWith (k.glue l [("c", "b"), ("d", "y")]) .conflictingMapping ∧
    FailsWith (k.glue l [("d", "b")]) .degenerateSimplex ∧
    (k.glue l [("d", "y"), ("c", "y")]).isOk ∧ ¬ Degenerates k l [("d", "y"), ("c", "y")] := by
  intro k l
  have hk : k.partition.Forest :=
    (Partition.union_joined (Partition.addAll_forest Partition.empty_forest _) "c" "d").1.forest
  have hl : l.partition.Forest := Partition.addAll_forest Partition.empty_forest _
  have hz : ¬ k.Names "z" := by decide +kernel
  have htwo : Resolves k l [("c", "b"), ("d", "y")] ∧
      ¬ OneToOne (classPairs k l [("c", "b"), ("d", "y")]) := by decide +kernel
  have hone : Resolves k l [("d", "b")] ∧ OneToOne (classPairs k l [("d", "b")]) := by
    decide +kernel
  have hmem : ["b", "c"] ∈ k.maximal ++ l.maximal := by decide +kernel
  have hdc : k.identifies "d" "c" = true := by decide +kernel
  have hok : (k.glue l [("d", "y"), ("c", "y")]).isOk := by decide +kernel
  clear_value k l
  have hbc : Glued k l [("d", "b")] "b" "c" :=
    .trans _ "d" _ (.symm _ _ (.rel _ _ (Or.inr (Or.inr (by simp))))) (.rel _ _ (Or.inl hdc))
  obtain ⟨hnone, -⟩ := glue_fails_exactly k l hk hl [("z", "y")]
  obtain ⟨-, hclasses, -⟩ := glue_fails_exactly k l hk hl [("c", "b"), ("d", "y")]
  obtain ⟨-, -, hshrunk, -⟩ := glue_fails_exactly k l hk hl [("d", "b")]
  obtain ⟨-, -, -, hbuilt, -⟩ := glue_fails_exactly k l hk hl [("d", "y"), ("c", "y")]
  exact ⟨hnone.2 ⟨("z", "y"), by simp, Or.inl hz⟩, hclasses.2 htwo,
    hshrunk.2 ⟨hone.1, hone.2, _, hmem, 0, 1, "b", "c", by decide, rfl, rfl, hbc⟩, hok,
    (hbuilt.1 (exists_of_isOk hok)).2.2⟩

section Unglued

variable {k l : Complex}

theorem canonicalAll_operation (operation operation' : String) (p : Partition String)
    (ss : List Simplex) :
    (∃ ts, canonicalAll operation p ss = .ok ts ∧ canonicalAll operation' p ss = .ok ts) ∨
    ∃ s t, canonicalAll operation p ss = .error (.degenerateSimplex operation s t) ∧
      canonicalAll operation' p ss = .error (.degenerateSimplex operation' s t) := by
  induction ss with
  | nil => exact Or.inl ⟨[], rfl, rfl⟩
  | cons s ss ih =>
    simp only [canonicalAll, canonical]
    by_cases hs : (image p s).length = s.length
    · rw [if_pos hs, if_pos hs]
      rcases ih with ⟨ts, h, h'⟩ | ⟨u, t, h, h'⟩
      · exact Or.inl ⟨image p s :: ts, by rw [h]; rfl, by rw [h']; rfl⟩
      · exact Or.inr ⟨u, t, by rw [h]; rfl, by rw [h']; rfl⟩
    · rw [if_neg hs, if_neg hs]
      exact Or.inr ⟨s, image p s, rfl, rfl⟩

theorem union_eq_glue_nil (h : ¬ FailsWith (k.union l) .incompatibleIdentification) :
    (∃ r, k.union l = .ok r ∧ k.glue l [] = .ok r) ∨
    ∃ s t, k.union l = .error (.degenerateSimplex "union" s t) ∧
      k.glue l [] = .error (.degenerateSimplex "glue" s t) := by
  have hglue : k.glue l [] =
      quotient "glue" (k.partition.merge l.partition) (k.maximal ++ l.maximal) :=
    glue_eq_quotient (by simp [Resolves]) (by simp [OneToOne, classPairs])
  have hunion : k.union l =
      quotient "union" (k.partition.merge l.partition) (k.maximal ++ l.maximal) := by
    cases hd : disagreement k l with
    | none => rw [union, hd]
    | some e =>
      rw [union, hd] at h
      exact absurd ⟨_, rfl, rfl⟩ h
  rw [hglue, hunion, quotient, quotient]
  rcases canonicalAll_operation "union" "glue" (k.partition.merge l.partition)
    (k.maximal ++ l.maximal) with ⟨ts, hu, hg⟩ | ⟨s, t, hu, hg⟩
  · rw [hu, hg]
    exact Or.inl ⟨_, rfl, rfl⟩
  · rw [hu, hg]
    exact Or.inr ⟨s, t, rfl, rfl⟩

end Unglued

/-- A gluing that succeeds has the names and vertices of both complexes for nodes, the least
equivalence that contains their relations and the mapped pairs for its relation, and their
simplices over its representatives for simplices. A union that finds no disagreement is the gluing
along no pair. -/
theorem glue_builds_quotient (k l : Complex) (hk : k.partition.Forest)
    (hl : l.partition.Forest) :
    (∀ m r, k.glue l m = .ok r → IsGluing k l m r) ∧
    (¬ FailsWith (k.union l) .incompatibleIdentification →
      (∃ r, k.union l = .ok r ∧ k.glue l [] = .ok r) ∨
      ∃ s t, k.union l = .error (.degenerateSimplex "union" s t) ∧
        k.glue l [] = .error (.degenerateSimplex "glue" s t)) := by
  refine ⟨?_, union_eq_glue_nil⟩
  intro m r h
  rcases glue_cases hk hl m with ⟨-, hf⟩ | ⟨-, -, hf⟩ | ⟨-, -, -, hf⟩ | ⟨-, -, -, q, heq, hq⟩
  · exact absurd h (hf.ne_ok r)
  · exact absurd h (hf.ne_ok r)
  · exact absurd h (hf.ne_ok r)
  · rw [h] at heq
    cases heq
    exact hq

/-- An edge laid over the first of two edges, the second of which ends in a vertex that its partition
does not know. -/
theorem glue_builds_quotient_overlaid :
    let k := ofSimplices [["a", "b"]] ((Partition.empty.addAll ["a", "b"]).union "b" "c").2
    let l := ofSimplices [["x", "y"], ["y", "z"]] (Partition.empty.addAll ["x", "y"])
    (∃ r, k.glue l [("a", "x"), ("c", "y")] = .ok r ∧
      IsGluing k l [("a", "x"), ("c", "y")] r ∧ "z" ∈ r.partition.nodes ∧
      r.identifies "b" "y" = true ∧ r.maximal = [["a", "b"], ["b", "z"]]) ∧
    ∃ r, k.union l = .ok r ∧ k.glue l [] = .ok r := by
  intro k l
  have hk : k.partition.Forest :=
    (Partition.union_joined (Partition.addAll_forest Partition.empty_forest _) "b" "c").1.forest
  have hl : l.partition.Forest := Partition.addAll_forest Partition.empty_forest _
  have hz : "z" ∈ l.vertices := by decide +kernel
  have hbc : k.identifies "b" "c" = true := by decide +kernel
  have hmax : (k.glue l [("a", "x"), ("c", "y")]).toOption.map maximal =
      some [["a", "b"], ["b", "z"]] := by decide +kernel
  have hunion : (k.union l).isOk := by decide +kernel
  clear_value k l
  obtain ⟨hglue, hnil⟩ := glue_builds_quotient k l hk hl
  constructor
  · cases hr : k.glue l [("a", "x"), ("c", "y")] with
    | error f => simp [hr, Except.toOption] at hmax
    | ok r =>
      have h := hglue _ r hr
      have hby : Glued k l [("a", "x"), ("c", "y")] "b" "y" :=
        .trans _ "c" _ (.rel _ _ (Or.inl hbc)) (.rel _ _ (Or.inr (Or.inr (by simp))))
      exact ⟨r, rfl, h, (h.nodes "z").2 (Or.inr (Or.inr (Or.inr hz))), (h.glued "b" "y").2 hby,
        by simpa [hr, Except.toOption] using hmax⟩
  · obtain ⟨q, hq⟩ := exists_of_isOk hunion
    rcases hnil (by simp [FailsWith, hq]) with hboth | ⟨s, t, hfail, -⟩
    · exact hboth
    · rw [hq] at hfail
      cases hfail

end SimplexScript.Complex
