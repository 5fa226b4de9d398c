import Mathlib.Data.Multiset.MapFold
import SimplexScript.Language.Apply
import SimplexScript.Proofs.Complex.Canonical
import SimplexScript.Proofs.Complex.Outcomes
import SimplexScript.Proofs.Partition.Merge

/-!
# Unions of many complexes

The union of a list of canonical complexes is described without regard to the
order of the list: its nodes are all nodes, its relation is generated by all
relations, and its simplices are those of the complexes over the new points.
It exists if and only if no simplex of the list has two vertices that become
one point. A collapse on the way is a collapse at the end, because relations
only grow, so order and repetition do not matter, for failure neither.
-/

set_option autoImplicit false

namespace SimplexScript.Complex

def Concur {α : Type} (R : α → α → Prop) : Except Fault α → Except Fault α → Prop
  | .ok a, .ok b => R a b
  | .error e, .error f => e.code = some .degenerateSimplex ∧ f.code = some .degenerateSimplex
  | _, _ => False

section Quotient

variable {p : Partition String} {ss : List Simplex}

theorem length_image_eq {s : Simplex} :
    (image p s).length = s.length ↔ (s.map p.root).Nodup := by
  rw [← length_distinct_eq, List.length_map]
  rfl

theorem image_eq_map {s : Simplex} (h : (s.map p.root).Nodup) : image p s = s.map p.root :=
  distinct_eq_self h

theorem canonicalAll_eq_map (operation : String) (h : ∀ s ∈ ss, (s.map p.root).Nodup) :
    canonicalAll operation p ss = .ok (ss.map (image p)) := by
  induction ss with
  | nil => rfl
  | cons s ss ih =>
    have hs := length_image_eq.2 (h s (by simp))
    rw [canonicalAll, canonical, if_pos hs, ih fun t ht => h t (by simp [ht])]
    rfl

theorem quotient_cases (operation : String) (p : Partition String) (ss : List Simplex) :
    ((∀ s ∈ ss, (s.map p.root).Nodup) ∧ quotient operation p ss =
      .ok (ofSimplices (ss.map (image p)) (p.addAll ss.flatten))) ∨
    ((¬ ∀ s ∈ ss, (s.map p.root).Nodup) ∧ ∃ f, quotient operation p ss = .error f ∧
      f.code = some .degenerateSimplex) := by
  unfold quotient
  cases h : canonicalAll operation p ss with
  | ok ts =>
    obtain ⟨rfl, hlen⟩ := canonicalAll_eq_ok h
    exact Or.inl ⟨fun s hs => length_image_eq.1 (hlen s hs), rfl⟩
  | error f =>
    obtain ⟨s, t, rfl⟩ := canonicalAll_eq_error h
    refine Or.inr ⟨?_, _, rfl, rfl⟩
    intro hall
    rw [canonicalAll_eq_map operation hall] at h
    cases h

theorem exists_perm_ofSimplices {s : Simplex} (hs : s ∈ ss) :
    ∃ t ∈ (ofSimplices ss p).maximal, t.Perm s := by
  obtain ⟨t, ht, hkey⟩ := exists_mem_distinctBy hs
  exact ⟨t, ht, Simplex.key_eq_key.1 hkey⟩

end Quotient

/-- The point that a name stands for, as the set of all names for it. -/
def pointOf (c : Complex) (v : String) : Set String :=
  {w | w ∈ c.partition.nodes ∧ c.identifies v w = true}

def pointSimplices (c : Complex) : Set (Multiset (Set String)) :=
  {S | ∃ s ∈ c.maximal, S = (s.map c.pointOf : List (Set String))}

/-- The same names for the same points and the same simplices over them. -/
structure SamePoints (k l : Complex) : Prop where
  nodes : ∀ x, x ∈ k.partition.nodes ↔ x ∈ l.partition.nodes
  identifies : ∀ x y, k.identifies x y = l.identifies x y
  simplices : k.pointSimplices = l.pointSimplices

/-- The least equivalence that contains the relations of all listed complexes. -/
def Tied (cs : List Complex) : String → String → Prop :=
  Relation.EqvGen fun x y => ∃ c ∈ cs, c.partition.root x = c.partition.root y

def Rigid (cs : List Complex) : Prop :=
  ∀ c ∈ cs, ∀ s ∈ c.maximal, s.Pairwise fun v w => ¬ Tied cs v w

/-- What the union of a list of complexes is, whatever the order of the list. -/
structure IsUnion (cs : List Complex) (r : Complex) : Prop where
  forest : r.partition.Forest
  canonical : r.Canonical
  nodes : ∀ x, x ∈ r.partition.nodes ↔ ∃ c ∈ cs, x ∈ c.partition.nodes
  tied : ∀ x y, r.partition.root x = r.partition.root y ↔ Tied cs x y
  image : ∀ c ∈ cs, ∀ s ∈ c.maximal, ∃ t ∈ r.maximal, t.Perm (s.map r.partition.root)
  source : ∀ t ∈ r.maximal, ∃ c ∈ cs, ∃ s ∈ c.maximal, t.Perm (s.map r.partition.root)

theorem Tied.mono {cs ds : List Complex} (h : ∀ c ∈ cs, c ∈ ds) {x y : String}
    (hxy : Tied cs x y) : Tied ds x y := by
  apply Relation.EqvGen.mono _ x y hxy
  rintro a b ⟨c, hc, hab⟩
  exact ⟨c, h c hc, hab⟩

theorem Rigid.mono {cs ds : List Complex} (h : ∀ c ∈ cs, c ∈ ds) (hds : Rigid ds) : Rigid cs :=
  fun c hc s hs => (hds c (h c hc) s hs).imp fun hvw hcs => hvw (hcs.mono h)

theorem Canonical.map_root {c : Complex} (hc : c.Canonical) {s : Simplex} (hs : s ∈ c.maximal) :
    s.map c.partition.root = s := by
  have hroot : ∀ v ∈ s, c.partition.root v = id v :=
    fun v hv => (hc.representative v (mem_vertices.2 ⟨s, hs, hv⟩)).2
  rw [List.map_congr_left hroot, List.map_id]

theorem isUnion_single {c : Complex} (hf : c.partition.Forest) (hc : c.Canonical) :
    IsUnion [c] c where
  forest := hf
  canonical := hc
  nodes x := by simp
  tied x y := by
    constructor
    · exact fun h => .rel x y ⟨c, by simp, h⟩
    · apply Partition.root_eq_of_eqvGen
      rintro a b ⟨d, hd, hab⟩
      obtain rfl := List.mem_singleton.1 hd
      exact hab
  image d hd s hs := by
    obtain rfl := List.mem_singleton.1 hd
    exact ⟨s, hs, by rw [hc.map_root hs]⟩
  source t ht := ⟨c, by simp, t, ht, by rw [hc.map_root ht]⟩

theorem IsUnion.rigid {cs : List Complex} {r : Complex} (h : IsUnion cs r) : Rigid cs := by
  intro c hc s hs
  obtain ⟨t, ht, hperm⟩ := h.image c hc s hs
  have hnodup : (s.map r.partition.root).Nodup :=
    hperm.nodup_iff.1 (h.canonical.simplex_nodup t ht)
  exact (List.pairwise_map.1 hnodup).imp fun hne htied => hne ((h.tied _ _).2 htied)

section Step

variable {cs : List Complex} {k l : Complex}

theorem IsUnion.tied_merge (h : IsUnion cs k) (hlf : l.partition.Forest) (x y : String) :
    (k.partition.merge l.partition).root x = (k.partition.merge l.partition).root y ↔
      Tied (cs ++ [l]) x y := by
  constructor
  · apply Partition.root_merge_least h.forest hlf (Relation.EqvGen.is_equivalence _)
    · exact fun a b hab => ((h.tied a b).1 hab).mono fun c hc => List.mem_append_left _ hc
    · exact fun a b hab => .rel a b ⟨l, by simp, hab⟩
  · apply Partition.root_eq_of_eqvGen
    rintro a b ⟨c, hc, hab⟩
    rcases List.mem_append.1 hc with hc | hc
    · exact Partition.root_merge_of_left h.forest _ ((h.tied a b).2 (.rel a b ⟨c, hc, hab⟩))
    · obtain rfl := List.mem_singleton.1 hc
      exact Partition.root_merge_of_right _ hlf hab

theorem IsUnion.perm_merge (h : IsUnion cs k) {s t : Simplex}
    (hst : t.Perm (s.map k.partition.root)) :
    (t.map (k.partition.merge l.partition).root).Perm
      (s.map (k.partition.merge l.partition).root) := by
  have hroot : (k.partition.merge l.partition).root ∘ k.partition.root =
      (k.partition.merge l.partition).root := by
    funext v
    exact Partition.root_merge_of_left h.forest _ (Partition.root_root h.forest v)
  have hmap := hst.map (k.partition.merge l.partition).root
  rwa [List.map_map, hroot] at hmap

theorem IsUnion.nodup_iff (h : IsUnion cs k) (hlf : l.partition.Forest) :
    (∀ s ∈ k.maximal ++ l.maximal, (s.map (k.partition.merge l.partition).root).Nodup) ↔
      Rigid (cs ++ [l]) := by
  have hpair : ∀ s : Simplex, (s.map (k.partition.merge l.partition).root).Nodup ↔
      s.Pairwise fun v w => ¬ Tied (cs ++ [l]) v w := by
    intro s
    rw [List.Nodup, List.pairwise_map]
    simp only [ne_eq, h.tied_merge hlf]
  constructor
  · intro hall c hc s hs
    rw [← hpair]
    rcases List.mem_append.1 hc with hc | hc
    · obtain ⟨t, ht, hperm⟩ := h.image c hc s hs
      exact (h.perm_merge hperm).nodup_iff.1 (hall t (List.mem_append_left _ ht))
    · obtain rfl := List.mem_singleton.1 hc
      exact hall s (List.mem_append_right _ hs)
  · intro hrigid t ht
    rcases List.mem_append.1 ht with ht | ht
    · obtain ⟨c, hc, s, hs, hperm⟩ := h.source t ht
      exact (h.perm_merge hperm).nodup_iff.2
        ((hpair s).2 (hrigid c (List.mem_append_left _ hc) s hs))
    · exact (hpair t).2 (hrigid l (by simp) t ht)

theorem IsUnion.extend (h : IsUnion cs k) (hlf : l.partition.Forest) (hl : l.Canonical)
    (hnodup : ∀ s ∈ k.maximal ++ l.maximal, (s.map (k.partition.merge l.partition).root).Nodup) :
    IsUnion (cs ++ [l]) (ofSimplices
      ((k.maximal ++ l.maximal).map (Complex.image (k.partition.merge l.partition)))
      ((k.partition.merge l.partition).addAll (k.maximal ++ l.maximal).flatten)) := by
  have hforest := Partition.merge_forest k.partition l.partition
  have hnodes : ∀ x, x ∈ (k.partition.merge l.partition).nodes ↔
      x ∈ k.partition.nodes ∨ x ∈ l.partition.nodes :=
    fun x => Partition.mem_nodes_merge h.forest hlf
  have hcanonical := canonical_sides h.canonical hl hforest hnodes
    (fun _ hx => Partition.root_merge_left l.partition hx)
    fun _ hx => Partition.root_merge_right k.partition hx
  have hsub : (k.partition.merge l.partition).addAll (k.maximal ++ l.maximal).flatten =
      k.partition.merge l.partition := by
    apply Partition.addAll_of_subset
    intro v hv
    obtain ⟨s, hs, hvs⟩ := List.mem_flatten.1 hv
    rcases List.mem_append.1 hs with hs | hs
    · exact (hnodes v).2 (Or.inl (h.canonical.mem_of_simplex hs hvs))
    · exact (hnodes v).2 (Or.inr (hl.mem_of_simplex hs hvs))
  rw [hsub] at hcanonical ⊢
  have himage : ∀ s ∈ k.maximal ++ l.maximal, ∃ u ∈ (ofSimplices ((k.maximal ++ l.maximal).map
      (Complex.image (k.partition.merge l.partition))) (k.partition.merge l.partition)).maximal,
      u.Perm (s.map (k.partition.merge l.partition).root) := by
    intro s hs
    obtain ⟨u, hu, hperm⟩ := exists_perm_ofSimplices (p := k.partition.merge l.partition)
      (List.mem_map.2 ⟨s, hs, rfl⟩)
    exact ⟨u, hu, image_eq_map (hnodup s hs) ▸ hperm⟩
  refine ⟨hforest, hcanonical, ?_, h.tied_merge hlf, ?_, ?_⟩
  · intro x
    refine (hnodes x).trans ?_
    rw [h.nodes]
    simp only [List.mem_append, List.mem_singleton, or_and_right, exists_or, exists_eq_left]
  · intro c hc s hs
    rcases List.mem_append.1 hc with hc | hc
    · obtain ⟨t, ht, hperm⟩ := h.image c hc s hs
      obtain ⟨u, hu, hut⟩ := himage t (List.mem_append_left _ ht)
      exact ⟨u, hu, hut.trans (h.perm_merge hperm)⟩
    · obtain rfl := List.mem_singleton.1 hc
      exact himage s (List.mem_append_right _ hs)
  · intro u hu
    obtain ⟨t, ht, rfl⟩ := List.mem_map.1 (mem_of_mem_distinctBy hu)
    rw [image_eq_map (hnodup t ht)]
    rcases List.mem_append.1 ht with ht | ht
    · obtain ⟨c, hc, s, hs, hperm⟩ := h.source t ht
      exact ⟨c, List.mem_append_left _ hc, s, hs, h.perm_merge hperm⟩
    · exact ⟨l, by simp, t, ht, List.Perm.refl _⟩

theorem union_eq_quotient (hk : k.Canonical) (hl : l.Canonical) :
    k.union l = quotient "union" (k.partition.merge l.partition) (k.maximal ++ l.maximal) := by
  rw [Complex.union, disagreement_eq_none hk hl]

theorem IsUnion.union_cases (h : IsUnion cs k) (hlf : l.partition.Forest) (hl : l.Canonical) :
    (∃ r, k.union l = .ok r ∧ IsUnion (cs ++ [l]) r) ∨
    (¬ Rigid (cs ++ [l]) ∧ ∃ f, k.union l = .error f ∧ f.code = some .degenerateSimplex) := by
  rw [union_eq_quotient h.canonical hl]
  rcases quotient_cases "union" (k.partition.merge l.partition) (k.maximal ++ l.maximal) with
    ⟨hnodup, heq⟩ | ⟨hnodup, hf⟩
  · exact Or.inl ⟨_, heq, h.extend hlf hl hnodup⟩
  · exact Or.inr ⟨fun hr => hnodup ((h.nodup_iff hlf).2 hr), hf⟩

/-- The whole fold: a complex that is no longer rigid part of the way is not rigid in the end. -/
theorem IsUnion.combineAll_cases {rest : List Complex} (h : IsUnion cs k)
    (hrest : ∀ d ∈ rest, d.partition.Forest ∧ d.Canonical) :
    (∃ r, Fold.union.combineAll k rest = .ok r ∧ IsUnion (cs ++ rest) r) ∨
    (¬ Rigid (cs ++ rest) ∧ ∃ f, Fold.union.combineAll k rest = .error f ∧
      f.code = some .degenerateSimplex) := by
  induction rest generalizing cs k with
  | nil => exact Or.inl ⟨k, rfl, by simpa using h⟩
  | cons d rest ih =>
    obtain ⟨hdf, hd⟩ := hrest d (by simp)
    have happend : cs ++ d :: rest = (cs ++ [d]) ++ rest := by simp
    rw [happend, Fold.combineAll, Fold.combine]
    rcases h.union_cases hdf hd with ⟨r, heq, hr⟩ | ⟨hrigid, f, heq, hcode⟩
    · rw [heq]
      exact ih hr fun e he => hrest e (by simp [he])
    · rw [heq]
      exact Or.inr ⟨fun hall => hrigid (hall.mono fun c hc => List.mem_append_left _ hc), f, rfl,
        hcode⟩

end Step

def tiedTo (cs : List Complex) (v : String) : Set String :=
  {w | (∃ c ∈ cs, w ∈ c.partition.nodes) ∧ Tied cs v w}

theorem IsUnion.pointOf_root {cs : List Complex} {r : Complex} (h : IsUnion cs r) :
    r.pointOf ∘ r.partition.root = tiedTo cs := by
  funext v
  ext w
  simp only [Function.comp_apply, pointOf, tiedTo, identifies, Set.mem_ofPred_eq,
    Partition.same_iff h.forest, Partition.root_root h.forest, h.nodes, h.tied]

theorem IsUnion.mem_pointSimplices {cs : List Complex} {r : Complex} (h : IsUnion cs r)
    {S : Multiset (Set String)} : S ∈ r.pointSimplices ↔ ∃ c ∈ cs, ∃ s ∈ c.maximal,
      S = (s.map (tiedTo cs) : List (Set String)) := by
  have hpoints : ∀ s t : Simplex, t.Perm (s.map r.partition.root) →
      ((t.map r.pointOf : List (Set String)) : Multiset (Set String)) = s.map (tiedTo cs) := by
    intro s t hperm
    rw [Multiset.coe_eq_coe]
    have hmap := hperm.map r.pointOf
    rwa [List.map_map, h.pointOf_root] at hmap
  constructor
  · rintro ⟨t, ht, rfl⟩
    obtain ⟨c, hc, s, hs, hperm⟩ := h.source t ht
    exact ⟨c, hc, s, hs, hpoints s t hperm⟩
  · rintro ⟨c, hc, s, hs, rfl⟩
    obtain ⟨t, ht, hperm⟩ := h.image c hc s hs
    exact ⟨t, ht, (hpoints s t hperm).symm⟩

theorem IsUnion.samePoints {cs ds : List Complex} {k l : Complex} (hk : IsUnion cs k)
    (hl : IsUnion ds l) (h : ∀ c, c ∈ cs ↔ c ∈ ds) : SamePoints k l := by
  have htied : ∀ x y, Tied cs x y ↔ Tied ds x y :=
    fun x y => ⟨Tied.mono fun c hc => (h c).1 hc, Tied.mono fun c hc => (h c).2 hc⟩
  have hpoint : tiedTo cs = tiedTo ds := by
    funext v
    ext w
    simp only [tiedTo, h, htied]
  refine ⟨?_, ?_, ?_⟩
  · intro x
    rw [hk.nodes, hl.nodes]
    simp only [h]
  · intro x y
    rw [Bool.eq_iff_iff, identifies, identifies, Partition.same_iff hk.forest,
      Partition.same_iff hl.forest, hk.tied, hl.tied, htied]
  · ext S
    rw [hk.mem_pointSimplices, hl.mem_pointSimplices]
    simp only [h, hpoint]

theorem complexes_map (op : Operator) (cs : List Complex) :
    op.complexes (cs.map Value.complex) = .ok cs := by
  induction cs with
  | nil => rfl
  | cons c cs ih =>
    rw [List.map_cons, Operator.complexes, ih]
    rfl

theorem apply_fold (name : String) (f : Fold) (c : Complex) (rest : List Complex)
    (order : Table String Number) :
    Operator.apply ⟨name, .fold f⟩ ((c :: rest).map Value.complex) none order =
      (f.combineAll c rest).map Value.complex := by
  have hcs := complexes_map ⟨name, .fold f⟩ (c :: rest)
  have happly : Operator.apply ⟨name, .fold f⟩ ((c :: rest).map Value.complex) none order =
      f.combineAll c rest >>= fun d => pure (Value.complex d) := by
    simp only [Operator.apply, Operator.rejectMapping, hcs]
    rfl
  rw [happly]
  cases f.combineAll c rest <;> rfl

/-- A complex as it is built: its partition is a forest, and no simplex is listed twice. -/
structure Formed (c : Complex) : Prop where
  forest : c.partition.Forest
  apart : c.maximal.Pairwise fun s t => ¬ s.Perm t

theorem formed_ofSimplices {p : Partition String} (hp : p.Forest) (ss : List Simplex) :
    (ofSimplices ss p).Formed :=
  ⟨hp, pairwise_ofSimplices ss p⟩

theorem root_merge_self {p : Partition String} (hp : p.Forest) (x : String) :
    (p.merge p).root x = p.root x := by
  by_cases hx : x ∈ p.nodes
  · exact (Partition.root_merge_of_agree hp hp fun _ _ _ => rfl).1 x hx
  · have hx' : x ∉ (p.merge p).nodes := by
      rw [Partition.mem_nodes_merge hp hp]
      simpa using hx
    rw [Partition.root_of_not_mem (Partition.merge_forest p p) hx', Partition.root_of_not_mem hp hx]

/-- A union with itself: every vertex is its own representative on both sides, so nothing moves,
and the second copy of each simplex is dropped. -/
theorem union_self {a : Complex} (hf : a.Formed) (ha : a.Canonical) :
    ∃ r, a.union a = .ok r ∧ r.maximal = a.maximal ∧
      ∀ x, r.partition.root x = a.partition.root x := by
  have hmap : ∀ s ∈ a.maximal ++ a.maximal, s.map (a.partition.merge a.partition).root = s := by
    intro s hs
    rw [funext (root_merge_self hf.forest)]
    exact ha.map_root (by simpa using hs)
  have hnodup : ∀ s ∈ a.maximal ++ a.maximal,
      (s.map (a.partition.merge a.partition).root).Nodup := by
    intro s hs
    rw [hmap s hs]
    exact ha.simplex_nodup s (by simpa using hs)
  have himages : (a.maximal ++ a.maximal).map (image (a.partition.merge a.partition)) =
      a.maximal ++ a.maximal := by
    have hid : ∀ s ∈ a.maximal ++ a.maximal, image (a.partition.merge a.partition) s = id s := by
      intro s hs
      rw [image_eq_map (hnodup s hs), hmap s hs, id]
    rw [List.map_congr_left hid, List.map_id]
  rcases quotient_cases "union" (a.partition.merge a.partition) (a.maximal ++ a.maximal) with
    ⟨-, heq⟩ | ⟨hnot, -⟩
  · refine ⟨_, (union_eq_quotient ha ha).trans heq, ?_, ?_⟩
    · rw [himages]
      apply distinctBy_append
      · exact hf.apart.imp fun h hkey => h (Simplex.key_eq_key.1 hkey)
      · exact fun s hs => ⟨s, hs, rfl⟩
    · intro x
      exact (Partition.root_addAll (Partition.merge_forest _ _) _ x).trans
        (root_merge_self hf.forest x)
  · exact absurd hnodup hnot

theorem combineAll_cases {c : Complex} {rest : List Complex}
    (h : ∀ d ∈ c :: rest, d.Formed ∧ d.Canonical) :
    (∃ r, Fold.union.combineAll c rest = .ok r ∧ IsUnion (c :: rest) r) ∨
    (¬ Rigid (c :: rest) ∧ ∃ f, Fold.union.combineAll c rest = .error f ∧
      f.code = some .degenerateSimplex) := by
  obtain ⟨hf, hc⟩ := h c (by simp)
  exact (isUnion_single hf.forest hc).combineAll_cases fun d hd =>
    ⟨(h d (by simp [hd])).1.forest, (h d (by simp [hd])).2⟩

/-- What the union operator makes of canonical complexes depends only on which complexes are among
its arguments, so neither on their order nor on repetitions: the same points and simplices, or a
simplex that would shrink, which is so exactly if two of its vertices are tied. A complex united
with itself keeps its simplices and representatives. -/
theorem union_of_same_members :
    (∀ (cs ds : List Complex) (order order' : Table String Number), cs ≠ [] →
      (∀ c ∈ cs, c.Formed ∧ c.Canonical) → (∀ c, c ∈ cs ↔ c ∈ ds) →
      Concur (fun v w => ∃ k l, v = .complex k ∧ w = .complex l ∧ SamePoints k l)
        (Operator.apply ⟨"union", .fold .union⟩ (cs.map .complex) none order)
        (Operator.apply ⟨"union", .fold .union⟩ (ds.map .complex) none order') ∧
      ((Operator.apply ⟨"union", .fold .union⟩ (cs.map .complex) none order).isOk ↔ Rigid cs)) ∧
    ∀ a : Complex, a.Formed → a.Canonical →
      ∃ r, a.union a = .ok r ∧ r.maximal = a.maximal ∧
        ∀ x, r.partition.root x = a.partition.root x := by
  refine ⟨?_, fun a hf ha => union_self hf ha⟩
  intro cs ds order order' hne hcs hmem
  cases cs with
  | nil => exact absurd rfl hne
  | cons c cs =>
    cases ds with
    | nil => exact absurd ((hmem c).1 (by simp)) (by simp)
    | cons d ds =>
      have hds : ∀ e ∈ d :: ds, e.Formed ∧ e.Canonical := fun e he => hcs e ((hmem e).2 he)
      rw [apply_fold, apply_fold]
      rcases combineAll_cases hcs with ⟨k, hk, hku⟩ | ⟨hkr, e, hk, he⟩ <;>
        rcases combineAll_cases hds with ⟨l, hl, hlu⟩ | ⟨hlr, f, hl, hf⟩
      · rw [hk, hl]
        exact ⟨⟨k, l, rfl, rfl, hku.samePoints hlu hmem⟩, fun _ => hku.rigid, fun _ => rfl⟩
      · exact absurd (hku.rigid.mono fun e he => (hmem e).2 he) hlr
      · exact absurd (hlu.rigid.mono fun e he => (hmem e).1 he) hkr
      · rw [hk, hl]
        refine ⟨⟨he, hf⟩, ?_, fun h => absurd h hkr⟩
        intro h
        cases h

/-- Three edges, one of which knows the end of another under two names, in two orders. -/
theorem union_of_same_members_reordered :
    let k := ofSimplices [["a", "b"]] (Partition.empty.addAll ["a", "b"])
    let l := ofSimplices [["c", "d"]] ((Partition.empty.addAll ["c", "d"]).union "c" "b").2
    let m := ofSimplices [["d", "e"]] (Partition.empty.addAll ["d", "e"])
    (Operator.apply ⟨"union", .fold .union⟩ ([k, l, m].map .complex) none []).isOk ∧
    Concur (fun v w => ∃ k l, v = .complex k ∧ w = .complex l ∧ SamePoints k l)
      (Operator.apply ⟨"union", .fold .union⟩ ([k, l, m].map .complex) none [])
      (Operator.apply ⟨"union", .fold .union⟩ ([m, l, k, l].map .complex) none []) ∧
    ∃ r, l.union l = .ok r ∧ r.maximal = l.maximal ∧
      ∀ x, r.partition.root x = l.partition.root x := by
  intro k l m
  have hlit (vs : List String) : ((Partition.empty : Partition String).addAll vs).Forest :=
    Partition.addAll_forest Partition.empty_forest vs
  have hk : k.Formed ∧ k.Canonical :=
    ⟨formed_ofSimplices (hlit _) _, by decide +kernel, by decide +kernel, by decide +kernel,
      by decide +kernel⟩
  have hl : l.Formed ∧ l.Canonical :=
    ⟨formed_ofSimplices (Partition.union_joined (hlit _) "c" "b").1.forest _, by decide +kernel,
      by decide +kernel, by decide +kernel, by decide +kernel⟩
  have hm : m.Formed ∧ m.Canonical :=
    ⟨formed_ofSimplices (hlit _) _, by decide +kernel, by decide +kernel, by decide +kernel,
      by decide +kernel⟩
  have hok : (Operator.apply ⟨"union", .fold .union⟩ ([k, l, m].map .complex) none []).isOk := by
    decide +kernel
  -- from here on only what was shown of the three matters
  clear_value k l m
  have hall : ∀ c ∈ [k, l, m], c.Formed ∧ c.Canonical := by
    simp only [List.forall_mem_cons]
    exact ⟨hk, hl, hm, by simp⟩
  have hmem : ∀ c, c ∈ [k, l, m] ↔ c ∈ [m, l, k, l] := by
    intro c
    simp only [List.mem_cons, List.not_mem_nil, or_false]
    tauto
  exact ⟨hok, (union_of_same_members.1 _ _ [] [] (List.cons_ne_nil _ _) hall hmem).1,
    union_of_same_members.2 l hl.1 hl.2⟩

end SimplexScript.Complex
