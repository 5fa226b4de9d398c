import SimplexScript.Proofs.Complex.Names

/-!
# Canonical complexes

A canonical complex is written in representatives: its vertices are exactly
the representatives of its classes. Literals are canonical, and every
operation of the algebra writes its result in the representatives of the new
partition. Between canonical complexes the guards of union and gluing against
identifications that disagree are idle.
-/

set_option autoImplicit false

namespace SimplexScript.Complex

structure Canonical (c : Complex) : Prop where
  simplex_ne_nil : ∀ s ∈ c.maximal, s ≠ []
  simplex_nodup : ∀ s ∈ c.maximal, s.Nodup
  representative : ∀ v ∈ c.vertices, v ∈ c.partition.nodes ∧ c.partition.root v = v
  covered : ∀ x ∈ c.partition.nodes, c.partition.root x ∈ c.vertices

/-- A canonical complex with at least one simplex, no two of them the same. -/
structure Proper (c : Complex) : Prop extends Canonical c where
  maximal_ne_nil : c.maximal ≠ []
  maximal_pairwise : c.maximal.Pairwise fun s t => ¬ s.Perm t

theorem pairwise_ofSimplices (ss : List Simplex) (p : Partition String) :
    (ofSimplices ss p).maximal.Pairwise fun s t => ¬ s.Perm t :=
  (pairwise_distinctBy ss).imp fun h hp => h (Simplex.key_eq_key.2 hp)

theorem ofSimplices_ne_nil {ss : List Simplex} (h : ss ≠ []) (p : Partition String) :
    (ofSimplices ss p).maximal ≠ [] := by
  obtain ⟨s, hs⟩ := List.exists_mem_of_ne_nil ss h
  obtain ⟨t, ht, -⟩ : ∃ t ∈ distinctBy Simplex.key ss, Simplex.key t = Simplex.key s :=
    exists_mem_distinctBy hs
  exact List.ne_nil_of_mem ht

theorem canonical_ofSimplices {ss : List Simplex} {p : Partition String}
    (hnil : ∀ s ∈ ss, s ≠ []) (hnodup : ∀ s ∈ ss, s.Nodup)
    (hrep : ∀ s ∈ ss, ∀ v ∈ s, v ∈ p.nodes ∧ p.root v = v)
    (hcov : ∀ x ∈ p.nodes, ∃ s ∈ ss, p.root x ∈ s) : (ofSimplices ss p).Canonical where
  simplex_ne_nil s hs := hnil s (mem_of_mem_distinctBy hs)
  simplex_nodup s hs := hnodup s (mem_of_mem_distinctBy hs)
  representative v hv := by
    obtain ⟨s, hs, hvs⟩ := mem_vertices_ofSimplices.1 hv
    exact hrep s hs v hvs
  covered x hx := mem_vertices_ofSimplices.2 (hcov x hx)

/-- What is built from a list of simplices lists none of them twice, so it is proper as soon as it
is canonical and the list is not empty. -/
theorem Canonical.proper {ss : List Simplex} {p : Partition String}
    (h : (ofSimplices ss p).Canonical) (hne : ss ≠ []) : (ofSimplices ss p).Proper where
  toCanonical := h
  maximal_ne_nil := ofSimplices_ne_nil hne p
  maximal_pairwise := pairwise_ofSimplices ss p

theorem proper_single {vs : List String} (hne : vs ≠ []) (hnodup : vs.Nodup) :
    (ofSimplices [vs] (Partition.empty.addAll vs)).Proper := by
  refine (canonical_ofSimplices ?_ ?_ ?_ ?_).proper (List.cons_ne_nil vs [])
  · simpa using hne
  · simpa using hnodup
  · intro s hs v hv
    obtain rfl := List.mem_singleton.1 hs
    exact ⟨mem_nodes_literal.2 hv, Partition.root_empty_addAll _ v⟩
  · intro x hx
    refine ⟨vs, by simp, ?_⟩
    rw [Partition.root_empty_addAll]
    exact mem_nodes_literal.1 hx

theorem proper_point (v : String) : (point v).Proper :=
  proper_single (List.cons_ne_nil v []) (List.nodup_singleton v)

theorem nodup_of_firstRepeated {vs seen : List String} (h : firstRepeated seen vs = none) :
    vs.Nodup ∧ ∀ v ∈ vs, v ∉ seen := by
  induction vs generalizing seen with
  | nil => simp
  | cons v vs ih =>
    rw [firstRepeated] at h
    split at h
    · cases h
    next hv =>
      obtain ⟨hnodup, hseen⟩ := ih h
      refine ⟨List.nodup_cons.2 ⟨fun hmem => hseen v hmem (by simp), hnodup⟩, ?_⟩
      intro w hw
      rcases List.mem_cons.1 hw with rfl | hw
      · exact hv
      · exact fun hs => hseen w hw (List.mem_cons_of_mem _ hs)

theorem proper_ofVertices {vs : List String} {c : Complex} (hne : vs ≠ [])
    (h : ofVertices vs = .ok c) : c.Proper := by
  obtain ⟨hrep, rfl⟩ := ofVertices_eq_ok h
  rw [if_neg hne]
  exact proper_single hne (nodup_of_firstRepeated hrep).1

theorem canonical_quotient {p : Partition String} (hp : p.Forest) {ss : List Simplex}
    (hnil : ∀ s ∈ ss, s ≠ []) (hknown : ∀ s ∈ ss, ∀ v ∈ s, v ∈ p.nodes)
    (hcov : ∀ x ∈ p.nodes, ∃ s ∈ ss, ∃ v ∈ s, p.root v = p.root x) :
    (ofSimplices (ss.map (image p)) (p.addAll ss.flatten)).Canonical := by
  have hsub : p.addAll ss.flatten = p := by
    apply Partition.addAll_of_subset
    intro v hv
    obtain ⟨s, hs, hvs⟩ := List.mem_flatten.1 hv
    exact hknown s hs v hvs
  rw [hsub]
  apply canonical_ofSimplices
  · intro t ht
    obtain ⟨s, hs, rfl⟩ := List.mem_map.1 ht
    obtain ⟨v, hv⟩ := List.exists_mem_of_ne_nil s (hnil s hs)
    exact List.ne_nil_of_mem (mem_image.2 ⟨v, hv, rfl⟩)
  · intro t ht
    obtain ⟨s, -, rfl⟩ := List.mem_map.1 ht
    exact nodup_distinct _
  · intro t ht v hv
    obtain ⟨s, hs, rfl⟩ := List.mem_map.1 ht
    obtain ⟨w, hw, rfl⟩ := mem_image.1 hv
    exact ⟨Partition.root_mem hp (hknown s hs w hw), Partition.root_root hp w⟩
  · intro x hx
    obtain ⟨s, hs, v, hv, he⟩ := hcov x hx
    exact ⟨image p s, List.mem_map.2 ⟨s, hs, rfl⟩, mem_image.2 ⟨v, hv, he⟩⟩

section Operands

variable {k l : Complex}

theorem Canonical.mem_of_simplex (hk : k.Canonical) {s : Simplex} (hs : s ∈ k.maximal)
    {v : String} (hv : v ∈ s) : v ∈ k.partition.nodes :=
  (hk.representative v (mem_vertices.2 ⟨s, hs, hv⟩)).1

/-- Every node of a canonical complex is in the class of a vertex, in each coarser partition. -/
theorem Canonical.exists_vertex (hk : k.Canonical) {p : Partition String}
    (hp : ∀ x ∈ k.partition.nodes, p.root (k.partition.root x) = p.root x) {x : String}
    (hx : x ∈ k.partition.nodes) : ∃ s ∈ k.maximal, ∃ v ∈ s, p.root v = p.root x := by
  obtain ⟨s, hs, hv⟩ := mem_vertices.1 (hk.covered x hx)
  exact ⟨s, hs, _, hv, hp x hx⟩

theorem canonical_sides (hk : k.Canonical) (hl : l.Canonical) {p : Partition String}
    (hp : p.Forest) (hnodes : ∀ x, x ∈ p.nodes ↔ x ∈ k.partition.nodes ∨ x ∈ l.partition.nodes)
    (hleft : ∀ x ∈ k.partition.nodes, p.root (k.partition.root x) = p.root x)
    (hright : ∀ x ∈ l.partition.nodes, p.root (l.partition.root x) = p.root x) :
    (ofSimplices ((k.maximal ++ l.maximal).map (image p))
      (p.addAll (k.maximal ++ l.maximal).flatten)).Canonical := by
  apply canonical_quotient hp
  · intro s hs
    rcases List.mem_append.1 hs with h | h
    · exact hk.simplex_ne_nil s h
    · exact hl.simplex_ne_nil s h
  · intro s hs v hv
    rw [hnodes]
    rcases List.mem_append.1 hs with h | h
    · exact Or.inl (hk.mem_of_simplex h hv)
    · exact Or.inr (hl.mem_of_simplex h hv)
  · intro x hx
    rcases (hnodes x).1 hx with h | h
    · obtain ⟨s, hs, hv⟩ := hk.exists_vertex hleft h
      exact ⟨s, List.mem_append_left _ hs, hv⟩
    · obtain ⟨s, hs, hv⟩ := hl.exists_vertex hright h
      exact ⟨s, List.mem_append_right _ hs, hv⟩

theorem span_mem_spans {s t : Simplex} (hs : s ∈ k.maximal) (ht : t ∈ l.maximal) :
    distinct (s ++ t) ∈ spans k l := by
  simp only [spans, List.mem_flatMap, List.mem_map]
  exact ⟨s, hs, t, ht, rfl⟩

theorem spans_ne_nil (hk : k.maximal ≠ []) (hl : l.maximal ≠ []) : spans k l ≠ [] := by
  obtain ⟨s, hs⟩ := List.exists_mem_of_ne_nil _ hk
  obtain ⟨t, ht⟩ := List.exists_mem_of_ne_nil _ hl
  exact List.ne_nil_of_mem (span_mem_spans hs ht)

theorem Canonical.spanned (hk : k.Canonical) (hl : l.Canonical) :
    ∀ u ∈ spans k l, ∀ v ∈ u, v ∈ k.partition.nodes ∨ v ∈ l.partition.nodes := by
  intro u hu v hv
  obtain ⟨s, hs, t, ht, rfl⟩ := mem_spans hu
  rcases List.mem_append.1 ((mem_distinct v _).1 hv) with h | h
  · exact Or.inl (hk.mem_of_simplex hs h)
  · exact Or.inr (hl.mem_of_simplex ht h)

theorem proper_spans (hkf : k.partition.Forest) (hk : k.Canonical) (hkne : k.maximal ≠ [])
    (hlf : l.partition.Forest) (hl : l.Canonical) (hlne : l.maximal ≠ []) :
    (ofSimplices ((spans k l).map (image (k.partition.merge l.partition)))
      ((k.partition.merge l.partition).addAll (spans k l).flatten)).Proper := by
  obtain ⟨s₀, hs₀⟩ := List.exists_mem_of_ne_nil _ hkne
  obtain ⟨t₀, ht₀⟩ := List.exists_mem_of_ne_nil _ hlne
  refine (canonical_quotient (Partition.merge_forest _ _) ?_ ?_ ?_).proper
    (by simpa using spans_ne_nil hkne hlne)
  · intro u hu
    obtain ⟨s, hs, t, -, rfl⟩ := mem_spans hu
    obtain ⟨v, hv⟩ := List.exists_mem_of_ne_nil s (hk.simplex_ne_nil s hs)
    exact List.ne_nil_of_mem ((mem_distinct v _).2 (List.mem_append_left _ hv))
  · intro u hu v hv
    rw [Partition.mem_nodes_merge hkf hlf]
    exact hk.spanned hl u hu v hv
  · intro x hx
    rcases (Partition.mem_nodes_merge hkf hlf).1 hx with h | h
    · obtain ⟨s, hs, v, hv, he⟩ :=
        hk.exists_vertex (fun x hx => Partition.root_merge_left l.partition hx) h
      exact ⟨_, span_mem_spans hs ht₀, v, (mem_distinct v _).2 (List.mem_append_left _ hv), he⟩
    · obtain ⟨t, ht, v, hv, he⟩ :=
        hl.exists_vertex (fun x hx => Partition.root_merge_right k.partition hx) h
      exact ⟨_, span_mem_spans hs₀ ht, v, (mem_distinct v _).2 (List.mem_append_right _ hv), he⟩

/-- Names joined to the representative of every node leave it the representative: a name with
another root is unknown, and then its rank is the least. -/
theorem root_unions_star {r : String} (ws : List String) {p : Partition String} (hp : p.Forest)
    (hr : r ∈ p.nodes) (hall : ∀ x ∈ p.nodes, p.root x = r) :
    ∀ x ∈ (p.unions (ws.map fun w => (r, w))).nodes,
      (p.unions (ws.map fun w => (r, w))).root x = r := by
  induction ws generalizing p with
  | nil => exact hall
  | cons w ws ih =>
    obtain ⟨hj, hwin⟩ := Partition.union_joined hp r w
    have hr' : (p.union r w).1 = r := by
      rw [hwin, hall r hr]
      split
      next hlt =>
        by_cases hw : w ∈ p.nodes
        · exact hall w hw
        · rw [Partition.root_of_not_mem hp hw, Partition.rank_of_not_mem hw] at hlt
          omega
      next => rfl
    apply ih hj.forest
    · exact (Partition.mem_nodes_union hp).2 (Or.inl hr)
    · intro x hx
      rw [hj.root, hr']
      rcases (Partition.mem_nodes_union hp).1 hx with h | rfl | rfl
      · simp [hall x h, hall r hr]
      · simp
      · simp

theorem root_star {r : String} {ws : List String} {x : String} (hx : x ∈ (star r ws).nodes) :
    (star r ws).root x = r := by
  apply root_unions_star ws (Partition.add_forest Partition.empty_forest r)
  · exact Partition.mem_nodes_add.2 (Or.inr rfl)
  · intro y hy
    rcases Partition.mem_nodes_add.1 hy with h | rfl
    · exact absurd h (Partition.not_mem_empty y)
    · exact Partition.root_empty_addAll [y] y
  · exact hx

theorem proper_classPoint (p : Partition String) (r : String) : (classPoint p r).Proper := by
  rw [classPoint_eq]
  refine (canonical_ofSimplices ?_ ?_ ?_ ?_).proper (List.cons_ne_nil _ _)
  · simp
  · simp
  · intro s hs v hv
    obtain rfl := List.mem_singleton.1 hs
    obtain rfl := List.mem_singleton.1 hv
    have hmem : v ∈ (star v (p.block v)).nodes := mem_nodes_star.2 (Or.inl rfl)
    exact ⟨hmem, root_star hmem⟩
  · intro x hx
    exact ⟨[r], by simp, by simp [root_star hx]⟩

theorem mem_pairs {α : Type} {xs : List α} {e : α × α} (h : e ∈ pairs xs) :
    e.1 ∈ xs ∧ e.2 ∈ xs ∧ (xs.Nodup → e.1 ≠ e.2) := by
  induction xs with
  | nil => simp [pairs] at h
  | cons x xs ih =>
    rw [pairs, List.mem_append] at h
    rcases h with h | h
    · obtain ⟨y, hy, rfl⟩ := List.mem_map.1 h
      refine ⟨by simp, List.mem_cons_of_mem _ hy, ?_⟩
      intro hnd he
      have he' : x = y := he
      exact (List.nodup_cons.1 hnd).1 (he' ▸ hy)
    · obtain ⟨h1, h2, h3⟩ := ih h
      exact ⟨List.mem_cons_of_mem _ h1, List.mem_cons_of_mem _ h2,
        fun hnd => h3 (List.nodup_cons.1 hnd).2⟩

theorem identifies_eq (k : Complex) {v w : String} (hv : v ∈ k.partition.nodes)
    (hw : w ∈ k.partition.nodes) :
    k.identifies v w = decide (k.partition.root v = k.partition.root w) := by
  have hcv := Partition.contains_iff.2 hv
  have hcw := Partition.contains_iff.2 hw
  by_cases h : v = w
  · simp [identifies, Partition.same, h]
  · simp [identifies, Partition.same, h, hcv, hcw]

theorem disagreement_eq_none (hk : k.Canonical) (hl : l.Canonical) : disagreement k l = none := by
  unfold disagreement
  rw [List.find?_eq_none]
  intro e he
  obtain ⟨h1, h2, hne⟩ := mem_pairs he
  simp only [List.mem_filter, decide_eq_true_eq] at h1 h2
  have hnd : (k.vertices.filter fun v => decide (v ∈ l.vertices)).Nodup :=
    List.Pairwise.filter _ (nodup_distinct _)
  obtain ⟨hk1, hr1⟩ := hk.representative _ h1.1
  obtain ⟨hk2, hr2⟩ := hk.representative _ h2.1
  obtain ⟨hl1, hs1⟩ := hl.representative _ h1.2
  obtain ⟨hl2, hs2⟩ := hl.representative _ h2.2
  rw [identifies_eq k hk1 hk2, identifies_eq l hl1 hl2, hr1, hr2, hs1, hs2]
  simp

end Operands

theorem agrees_of_set {t : Table String String} {e : String × String} {rest : Mapping}
    {f g : String × String → String}
    (hrest : ∀ d ∈ rest, ∀ y, Table.get? (Table.set t (f e) (g e)) (f d) = some y → y = g d)
    (he : ∀ y, Table.get? t (f e) = some y → y = g e) :
    (∀ d ∈ rest, f e = f d → g e = g d) ∧
      ∀ d ∈ e :: rest, ∀ y, Table.get? t (f d) = some y → y = g d := by
  have hsame : ∀ d ∈ rest, f e = f d → g e = g d :=
    fun d hd h => hrest d hd (g e) (by rw [Table.get?_set, if_pos h])
  refine ⟨hsame, ?_⟩
  intro d hd y hy
  rcases List.mem_cons.1 hd with rfl | hd
  · exact he y hy
  · by_cases h : f e = f d
    · rw [← hsame d hd h]
      exact he y (h ▸ hy)
    · exact hrest d hd y (by rw [Table.get?_set, if_neg h]; exact hy)

theorem checkClasses_ok {forward backward : Table String String} {m : Mapping}
    (h : checkClasses forward backward m = .ok ()) :
    (∀ e ∈ m, ∀ t, Table.get? forward e.1 = some t → t = e.2) ∧
    (∀ e ∈ m, ∀ s, Table.get? backward e.2 = some s → s = e.1) ∧
    ∀ e ∈ m, ∀ d ∈ m, e.1 = d.1 ↔ e.2 = d.2 := by
  induction m generalizing forward backward with
  | nil => simp
  | cons e rest ih =>
    obtain ⟨a, b⟩ := e
    rw [checkClasses] at h
    split at h
    · cases h
    next hf =>
      split at h
      · cases h
      next hb =>
        obtain ⟨ihf, ihb, ihr⟩ := ih h
        have hfa : ∀ t, Table.get? forward a = some t → t = b := by
          intro t ht
          simpa [ht, Option.filter] using hf
        have hbb : ∀ s, Table.get? backward b = some s → s = a := by
          intro s hs
          simpa [hs, Option.filter] using hb
        obtain ⟨hto, hforward⟩ :=
          agrees_of_set (e := (a, b)) (f := Prod.fst) (g := Prod.snd) ihf hfa
        obtain ⟨hfrom, hbackward⟩ :=
          agrees_of_set (e := (a, b)) (f := Prod.snd) (g := Prod.fst) ihb hbb
        have hhead : ∀ d ∈ rest, a = d.1 ↔ b = d.2 := fun d hd => ⟨hto d hd, hfrom d hd⟩
        refine ⟨hforward, hbackward, ?_⟩
        intro d hd d' hd'
        rcases List.mem_cons.1 hd with rfl | hd <;> rcases List.mem_cons.1 hd' with rfl | hd'
        · exact ⟨fun _ => rfl, fun _ => rfl⟩
        · exact hhead d' hd'
        · rw [eq_comm, hhead d hd, eq_comm]
        · exact ihr d hd d' hd'

/-- Whatever is glued: once the classes pass their check, the pairs agree on both sides. -/
theorem find?_inconsistent_eq_none {k l : Complex} {m : Mapping}
    (hc : checkClasses [] [] (m.map fun e => (k.partition.root e.1, l.partition.root e.2)) = .ok ())
    (hm : ∀ e ∈ m, e.1 ∈ k.partition.nodes ∧ e.2 ∈ l.partition.nodes) :
    (pairs m).find? (fun e => k.identifies e.1.1 e.2.1 != l.identifies e.1.2 e.2.2) = none := by
  rw [List.find?_eq_none]
  intro e he
  obtain ⟨h1, h2, -⟩ := mem_pairs he
  have hiff := (checkClasses_ok hc).2.2 _ (List.mem_map.2 ⟨e.1, h1, rfl⟩) _
    (List.mem_map.2 ⟨e.2, h2, rfl⟩)
  rw [identifies_eq k (hm _ h1).1 (hm _ h2).1, identifies_eq l (hm _ h1).2 (hm _ h2).2]
  simp only [bne_iff_ne, ne_eq, not_not]
  exact decide_eq_decide.2 hiff

end SimplexScript.Complex
