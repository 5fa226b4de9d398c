import SimplexScript.Proofs.Complex.Union

/-!
# Joins

Every vertex of one complex meets every vertex of the other in some simplex of
their join, so a join can only exist if no vertex of one is tied to another
vertex of the other. For canonical complexes this means that they give every
name they share one representative. Then no representative moves and a join
renames nothing, which makes it commutative and associative, failures
included.
-/

set_option autoImplicit false

namespace SimplexScript.Complex

def Concordant (k l : Complex) : Prop :=
  ∀ x ∈ k.partition.nodes, x ∈ l.partition.nodes → k.partition.root x = l.partition.root x

/-- The join of two complexes over the names and representatives of both. -/
structure IsJoin (k l r : Complex) : Prop where
  forest : r.partition.Forest
  proper : r.Proper
  nodes : ∀ x, x ∈ r.partition.nodes ↔ x ∈ k.partition.nodes ∨ x ∈ l.partition.nodes
  left : ∀ x ∈ k.partition.nodes, r.partition.root x = k.partition.root x
  right : ∀ x ∈ l.partition.nodes, r.partition.root x = l.partition.root x
  span : ∀ s ∈ k.maximal, ∀ t ∈ l.maximal, ∃ u ∈ r.maximal, u.Perm (distinct (s ++ t))
  source : ∀ u ∈ r.maximal, ∃ s ∈ k.maximal, ∃ t ∈ l.maximal, u.Perm (distinct (s ++ t))

theorem Concordant.symm {k l : Complex} (h : Concordant k l) : Concordant l k :=
  fun x hl hk => (h x hk hl).symm

theorem distinct_perm {xs ys : List String} (h : ∀ v, v ∈ xs ↔ v ∈ ys) :
    (distinct xs).Perm (distinct ys) := by
  rw [List.perm_ext_iff_of_nodup (nodup_distinct _) (nodup_distinct _)]
  intro v
  rw [mem_distinct, mem_distinct, h]

theorem IsJoin.symm {k l r : Complex} (h : IsJoin k l r) : IsJoin l k r := by
  have hswap : ∀ s t : Simplex, (distinct (s ++ t)).Perm (distinct (t ++ s)) :=
    fun s t => distinct_perm fun v => by simp only [List.mem_append, or_comm]
  refine ⟨h.forest, h.proper, fun x => (h.nodes x).trans or_comm, h.right, h.left, ?_, ?_⟩
  · intro t ht s hs
    obtain ⟨u, hu, hperm⟩ := h.span s hs t ht
    exact ⟨u, hu, hperm.trans (hswap s t)⟩
  · intro u hu
    obtain ⟨s, hs, t, ht, hperm⟩ := h.source u hu
    exact ⟨t, ht, s, hs, hperm.trans (hswap s t)⟩

theorem IsJoin.concordant {k l r : Complex} (h : IsJoin k l r) : Concordant k l :=
  fun x hk hl => (h.left x hk).symm.trans (h.right x hl)

section Pair

variable {k l : Complex}

theorem concordant_of_nodup (hk : k.Canonical) (hl : l.Canonical)
    (h : ∀ u ∈ spans k l, (u.map (k.partition.merge l.partition).root).Nodup) :
    Concordant k l := by
  intro x hxk hxl
  obtain ⟨s, hs, hv⟩ := mem_vertices.1 (hk.covered x hxk)
  obtain ⟨t, ht, hw⟩ := mem_vertices.1 (hl.covered x hxl)
  have hroot : (k.partition.merge l.partition).root (k.partition.root x) =
      (k.partition.merge l.partition).root (l.partition.root x) :=
    (Partition.root_merge_left l.partition hxk).trans
      (Partition.root_merge_right k.partition hxl).symm
  have hv' : k.partition.root x ∈ distinct (s ++ t) :=
    (mem_distinct _ _).2 (List.mem_append_left _ hv)
  have hw' : l.partition.root x ∈ distinct (s ++ t) :=
    (mem_distinct _ _).2 (List.mem_append_right _ hw)
  exact List.inj_on_of_nodup_map (h _ (span_mem_spans hs ht)) hv' hw' hroot

theorem Concordant.map_root (hkf : k.partition.Forest) (hk : k.Canonical)
    (hlf : l.partition.Forest) (hl : l.Canonical) (h : Concordant k l) {u : Simplex}
    (hu : u ∈ spans k l) : u.map (k.partition.merge l.partition).root = u := by
  obtain ⟨hleft, hright⟩ := Partition.root_merge_of_agree hkf hlf h
  have hroot : ∀ v ∈ u, (k.partition.merge l.partition).root v = id v := by
    intro v hv
    obtain ⟨s, hs, t, ht, rfl⟩ := mem_spans hu
    rcases List.mem_append.1 ((mem_distinct v _).1 hv) with hvs | hvt
    · obtain ⟨hmem, hfix⟩ := hk.representative v (mem_vertices.2 ⟨s, hs, hvs⟩)
      exact (hleft v hmem).trans hfix
    · obtain ⟨hmem, hfix⟩ := hl.representative v (mem_vertices.2 ⟨t, ht, hvt⟩)
      exact (hright v hmem).trans hfix
  rw [List.map_congr_left hroot, List.map_id]

theorem nodup_of_mem_spans {u : Simplex} (hu : u ∈ spans k l) : u.Nodup := by
  obtain ⟨s, -, t, -, rfl⟩ := mem_spans hu
  exact nodup_distinct _

theorem Concordant.isJoin (hkf : k.partition.Forest) (hk : k.Proper) (hlf : l.partition.Forest)
    (hl : l.Proper) (h : Concordant k l) :
    IsJoin k l (ofSimplices ((spans k l).map (image (k.partition.merge l.partition)))
      ((k.partition.merge l.partition).addAll (spans k l).flatten)) := by
  have hforest := Partition.merge_forest k.partition l.partition
  have hproper := proper_spans hkf hk.toCanonical hk.maximal_ne_nil hlf hl.toCanonical
    hl.maximal_ne_nil
  have hsub : (k.partition.merge l.partition).addAll (spans k l).flatten =
      k.partition.merge l.partition := by
    apply Partition.addAll_of_subset
    intro v hv
    obtain ⟨u, hu, hvu⟩ := List.mem_flatten.1 hv
    exact (Partition.mem_nodes_merge hkf hlf).2 (hk.spanned hl.toCanonical u hu v hvu)
  have himages : (spans k l).map (image (k.partition.merge l.partition)) = spans k l := by
    have hid : ∀ u ∈ spans k l, image (k.partition.merge l.partition) u = id u := by
      intro u hu
      have hmap := h.map_root hkf hk.toCanonical hlf hl.toCanonical hu
      rw [image_eq_map (hmap.symm ▸ nodup_of_mem_spans hu), hmap, id]
    rw [List.map_congr_left hid, List.map_id]
  rw [hsub, himages] at hproper ⊢
  obtain ⟨hleft, hright⟩ := Partition.root_merge_of_agree hkf hlf h
  refine ⟨hforest, hproper, fun x => Partition.mem_nodes_merge hkf hlf, hleft, hright, ?_, ?_⟩
  · intro s hs t ht
    exact exists_perm_ofSimplices (span_mem_spans hs ht)
  · intro u hu
    obtain ⟨s, hs, t, ht, rfl⟩ := mem_spans (mem_of_mem_distinctBy hu)
    exact ⟨s, hs, t, ht, List.Perm.refl _⟩

theorem join_cases (hkf : k.partition.Forest) (hk : k.Proper) (hlf : l.partition.Forest)
    (hl : l.Proper) :
    (∃ r, k.join l = .ok r ∧ IsJoin k l r) ∨
    (¬ Concordant k l ∧ ∃ f, k.join l = .error f ∧ f.code = some .degenerateSimplex) := by
  rcases quotient_cases "join" (k.partition.merge l.partition) (spans k l) with
    ⟨hnodup, heq⟩ | ⟨hnot, hf⟩
  · have h := concordant_of_nodup hk.toCanonical hl.toCanonical hnodup
    exact Or.inl ⟨_, heq, h.isJoin hkf hk hlf hl⟩
  · refine Or.inr ⟨?_, hf⟩
    intro h
    apply hnot
    intro u hu
    rw [h.map_root hkf hk.toCanonical hlf hl.toCanonical hu]
    exact nodup_of_mem_spans hu

end Pair

/-- The same simplices, vertex by vertex, and the same names for the same points. -/
structure SameSimplices (k l : Complex) : Prop where
  keys : ∀ key, key ∈ k.maximal.map Simplex.key ↔ key ∈ l.maximal.map Simplex.key
  nodes : ∀ x, x ∈ k.partition.nodes ↔ x ∈ l.partition.nodes
  identifies : ∀ x y, k.identifies x y = l.identifies x y

theorem keys_subset {ss ts : List Simplex} (h : ∀ s ∈ ss, ∃ t ∈ ts, t.Perm s) {key : String}
    (hkey : key ∈ ss.map Simplex.key) : key ∈ ts.map Simplex.key := by
  obtain ⟨s, hs, rfl⟩ := List.mem_map.1 hkey
  obtain ⟨t, ht, hperm⟩ := h s hs
  exact List.mem_map.2 ⟨t, ht, Simplex.key_eq_key.2 hperm⟩

theorem sameSimplices_of_root {k l : Complex} (hk : k.partition.Forest) (hl : l.partition.Forest)
    (hkl : ∀ s ∈ k.maximal, ∃ t ∈ l.maximal, t.Perm s)
    (hlk : ∀ t ∈ l.maximal, ∃ s ∈ k.maximal, s.Perm t)
    (hnodes : ∀ x, x ∈ k.partition.nodes ↔ x ∈ l.partition.nodes)
    (hroot : ∀ x ∈ k.partition.nodes, k.partition.root x = l.partition.root x) :
    SameSimplices k l := by
  have hall : ∀ x, k.partition.root x = l.partition.root x := by
    intro x
    by_cases hx : x ∈ k.partition.nodes
    · exact hroot x hx
    · rw [Partition.root_of_not_mem hk hx, Partition.root_of_not_mem hl (mt (hnodes x).2 hx)]
  refine ⟨fun key => ⟨keys_subset hkl, keys_subset hlk⟩, hnodes, ?_⟩
  intro x y
  rw [Bool.eq_iff_iff, identifies, identifies, Partition.same_iff hk, Partition.same_iff hl,
    hall, hall]

/-- What two complexes have for their join is determined up to the order of listing. -/
theorem IsJoin.unique {k l r q : Complex} (hr : IsJoin k l r) (hq : IsJoin k l q) :
    SameSimplices r q := by
  apply sameSimplices_of_root hr.forest hq.forest
  · intro u hu
    obtain ⟨s, hs, t, ht, hperm⟩ := hr.source u hu
    obtain ⟨w, hw, hwu⟩ := hq.span s hs t ht
    exact ⟨w, hw, hwu.trans hperm.symm⟩
  · intro w hw
    obtain ⟨s, hs, t, ht, hperm⟩ := hq.source w hw
    obtain ⟨u, hu, huw⟩ := hr.span s hs t ht
    exact ⟨u, hu, huw.trans hperm.symm⟩
  · intro x
    rw [hr.nodes, hq.nodes]
  · intro x hx
    rcases (hr.nodes x).1 hx with h | h
    · rw [hr.left x h, hq.left x h]
    · rw [hr.right x h, hq.right x h]

theorem join_comm {k l : Complex} (hkf : k.partition.Forest) (hk : k.Proper)
    (hlf : l.partition.Forest) (hl : l.Proper) :
    Concur SameSimplices (k.join l) (l.join k) := by
  rcases join_cases hkf hk hlf hl with ⟨r, hr, hkl⟩ | ⟨hkl, e, hr, he⟩ <;>
    rcases join_cases hlf hl hkf hk with ⟨q, hq, hlk⟩ | ⟨hlk, f, hq, hf⟩
  · rw [hr, hq]
    exact hkl.unique hlk.symm
  · exact absurd hkl.concordant.symm hlk
  · exact absurd hlk.concordant.symm hkl
  · rw [hr, hq]
    exact ⟨he, hf⟩

section Triple

variable {a b c r q : Complex}

theorem IsJoin.concordant_iff (h : IsJoin a b r) :
    Concordant r c ↔ Concordant a c ∧ Concordant b c := by
  constructor
  · intro hrc
    constructor
    · intro x hxa hxc
      exact (h.left x hxa).symm.trans (hrc x ((h.nodes x).2 (Or.inl hxa)) hxc)
    · intro x hxb hxc
      exact (h.right x hxb).symm.trans (hrc x ((h.nodes x).2 (Or.inr hxb)) hxc)
  · rintro ⟨hac, hbc⟩ x hxr hxc
    rcases (h.nodes x).1 hxr with hx | hx
    · exact (h.left x hx).trans (hac x hx hxc)
    · exact (h.right x hx).trans (hbc x hx hxc)

structure IsJoin₃ (a b c k : Complex) : Prop where
  forest : k.partition.Forest
  nodes : ∀ x, x ∈ k.partition.nodes ↔
    x ∈ a.partition.nodes ∨ x ∈ b.partition.nodes ∨ x ∈ c.partition.nodes
  first : ∀ x ∈ a.partition.nodes, k.partition.root x = a.partition.root x
  second : ∀ x ∈ b.partition.nodes, k.partition.root x = b.partition.root x
  third : ∀ x ∈ c.partition.nodes, k.partition.root x = c.partition.root x
  span : ∀ s ∈ a.maximal, ∀ t ∈ b.maximal, ∀ u ∈ c.maximal,
    ∃ w ∈ k.maximal, w.Perm (distinct (s ++ t ++ u))
  source : ∀ w ∈ k.maximal, ∃ s ∈ a.maximal, ∃ t ∈ b.maximal, ∃ u ∈ c.maximal,
    w.Perm (distinct (s ++ t ++ u))

theorem IsJoin.three (hr : IsJoin a b r) {k : Complex} (hk : IsJoin r c k) : IsJoin₃ a b c k := by
  have hmem : ∀ {s t u m : Simplex}, m.Perm (distinct (s ++ t)) →
      (distinct (m ++ u)).Perm (distinct (s ++ t ++ u)) := by
    intro s t u m hm
    apply distinct_perm
    intro v
    rw [List.mem_append, List.mem_append, hm.mem_iff, mem_distinct]
  refine ⟨hk.forest, ?_, ?_, ?_, hk.right, ?_, ?_⟩
  · intro x
    rw [hk.nodes, hr.nodes, or_assoc]
  · intro x hx
    rw [hk.left x ((hr.nodes x).2 (Or.inl hx)), hr.left x hx]
  · intro x hx
    rw [hk.left x ((hr.nodes x).2 (Or.inr hx)), hr.right x hx]
  · intro s hs t ht u hu
    obtain ⟨m, hm, hperm⟩ := hr.span s hs t ht
    obtain ⟨w, hw, hwm⟩ := hk.span m hm u hu
    exact ⟨w, hw, hwm.trans (hmem hperm)⟩
  · intro w hw
    obtain ⟨m, hm, u, hu, hwm⟩ := hk.source w hw
    obtain ⟨s, hs, t, ht, hperm⟩ := hr.source m hm
    exact ⟨s, hs, t, ht, u, hu, hwm.trans (hmem hperm)⟩

theorem IsJoin₃.reverse {k : Complex} (h : IsJoin₃ a b c k) : IsJoin₃ c b a k := by
  have hswap : ∀ s t u : Simplex, (distinct (s ++ t ++ u)).Perm (distinct (u ++ t ++ s)) := by
    intro s t u
    apply distinct_perm
    intro v
    simp only [List.mem_append]
    tauto
  refine ⟨h.forest, ?_, h.third, h.second, h.first, ?_, ?_⟩
  · intro x
    rw [h.nodes]
    tauto
  · intro u hu t ht s hs
    obtain ⟨w, hw, hperm⟩ := h.span s hs t ht u hu
    exact ⟨w, hw, hperm.trans (hswap s t u)⟩
  · intro w hw
    obtain ⟨s, hs, t, ht, u, hu, hperm⟩ := h.source w hw
    exact ⟨u, hu, t, ht, s, hs, hperm.trans (hswap s t u)⟩

theorem IsJoin₃.unique {k l : Complex} (hk : IsJoin₃ a b c k) (hl : IsJoin₃ a b c l) :
    SameSimplices k l := by
  apply sameSimplices_of_root hk.forest hl.forest
  · intro w hw
    obtain ⟨s, hs, t, ht, u, hu, hperm⟩ := hk.source w hw
    obtain ⟨w', hw', hperm'⟩ := hl.span s hs t ht u hu
    exact ⟨w', hw', hperm'.trans hperm.symm⟩
  · intro w hw
    obtain ⟨s, hs, t, ht, u, hu, hperm⟩ := hl.source w hw
    obtain ⟨w', hw', hperm'⟩ := hk.span s hs t ht u hu
    exact ⟨w', hw', hperm'.trans hperm.symm⟩
  · intro x
    rw [hk.nodes, hl.nodes]
  · intro x hx
    rcases (hk.nodes x).1 hx with hxa | hxb | hxc
    · rw [hk.first x hxa, hl.first x hxa]
    · rw [hk.second x hxb, hl.second x hxb]
    · rw [hk.third x hxc, hl.third x hxc]

/-- A join of three exists if and only if every two of them are concordant. -/
theorem join_join_cases (haf : a.partition.Forest) (ha : a.Proper) (hbf : b.partition.Forest)
    (hb : b.Proper) (hcf : c.partition.Forest) (hc : c.Proper) :
    (∃ k, (a.join b >>= fun r => r.join c) = .ok k ∧ IsJoin₃ a b c k ∧
      (Concordant a b ∧ Concordant a c ∧ Concordant b c)) ∨
    (¬ (Concordant a b ∧ Concordant a c ∧ Concordant b c) ∧
      ∃ f, (a.join b >>= fun r => r.join c) = .error f ∧ f.code = some .degenerateSimplex) := by
  rcases join_cases haf ha hbf hb with ⟨r, hr, hab⟩ | ⟨hab, f, hf, hcode⟩
  · rw [hr]
    rcases join_cases hab.forest hab.proper hcf hc with ⟨k, hk, hrc⟩ | ⟨hrc, f, hf, hcode⟩
    · exact Or.inl ⟨k, hk, hab.three hrc, hab.concordant, hab.concordant_iff.1 hrc.concordant⟩
    · exact Or.inr ⟨fun h => hrc (hab.concordant_iff.2 h.2), f, hf, hcode⟩
  · rw [hf]
    exact Or.inr ⟨fun h => hab h.1, f, rfl, hcode⟩

theorem join_join_right_cases (haf : a.partition.Forest) (ha : a.Proper)
    (hbf : b.partition.Forest) (hb : b.Proper) (hcf : c.partition.Forest) (hc : c.Proper) :
    (∃ k, (b.join c >>= fun q => a.join q) = .ok k ∧ IsJoin₃ a b c k ∧
      (Concordant a b ∧ Concordant a c ∧ Concordant b c)) ∨
    (¬ (Concordant a b ∧ Concordant a c ∧ Concordant b c) ∧
      ∃ f, (b.join c >>= fun q => a.join q) = .error f ∧ f.code = some .degenerateSimplex) := by
  rcases join_cases hbf hb hcf hc with ⟨q, hq, hbc⟩ | ⟨hbc, f, hf, hcode⟩
  · rw [hq]
    have hiff := hbc.concordant_iff (c := a)
    rcases join_cases haf ha hbc.forest hbc.proper with ⟨k, hk, haq⟩ | ⟨haq, f, hf, hcode⟩
    · obtain ⟨hba, hca⟩ := hiff.1 haq.concordant.symm
      exact Or.inl ⟨k, hk, (hbc.symm.three haq.symm).reverse, hba.symm, hca.symm, hbc.concordant⟩
    · exact Or.inr ⟨fun h => haq (hiff.2 ⟨h.1.symm, h.2.1.symm⟩).symm, f, hf, hcode⟩
  · rw [hf]
    exact Or.inr ⟨fun h => hbc h.2.2, f, rfl, hcode⟩

theorem join_assoc (haf : a.partition.Forest) (ha : a.Proper) (hbf : b.partition.Forest)
    (hb : b.Proper) (hcf : c.partition.Forest) (hc : c.Proper) :
    Concur SameSimplices (a.join b >>= fun r => r.join c) (b.join c >>= fun q => a.join q) := by
  rcases join_join_cases haf ha hbf hb hcf hc with ⟨k, hk, hk₃, hall⟩ | ⟨hnot, e, hk, he⟩ <;>
    rcases join_join_right_cases haf ha hbf hb hcf hc with ⟨l, hl, hl₃, hall'⟩ | ⟨hnot', f, hl, hf⟩
  · rw [hk, hl]
    exact hk₃.unique hl₃
  · exact absurd hall hnot'
  · exact absurd hall' hnot
  · rw [hk, hl]
    exact ⟨he, hf⟩

end Triple

theorem Formed.proper {c : Complex} (h : c.Formed) (hc : c.Canonical) (hne : c.maximal ≠ []) :
    c.Proper :=
  ⟨hc, hne, h.apart⟩

/-- Joining canonical complexes that have simplices. A join exists exactly if its operands give
every shared name one representative; its simplices are the unions of a simplex of one and a
simplex of the other, under the names they had; and neither order nor bracketing matters. -/
theorem join_of_canonical (a b c : Complex)
    (h : ∀ k ∈ [a, b, c], k.Formed ∧ k.Canonical ∧ k.maximal ≠ []) :
    ((a.join b).isOk ↔ Concordant a b) ∧
    (∀ r, a.join b = .ok r →
      (∀ u ∈ r.maximal, ∃ s ∈ a.maximal, ∃ t ∈ b.maximal,
        u.Nodup ∧ ∀ v, v ∈ u ↔ v ∈ s ∨ v ∈ t) ∧
      ∀ s ∈ a.maximal, ∀ t ∈ b.maximal, ∃ u ∈ r.maximal,
        u.Nodup ∧ ∀ v, v ∈ u ↔ v ∈ s ∨ v ∈ t) ∧
    Concur SameSimplices (a.join b) (b.join a) ∧
    Concur SameSimplices (a.join b >>= fun r => r.join c) (b.join c >>= fun r => a.join r) := by
  obtain ⟨haf, hac, hane⟩ := h a (by simp)
  obtain ⟨hbf, hbc, hbne⟩ := h b (by simp)
  obtain ⟨hcf, hcc, hcne⟩ := h c (by simp)
  have ha := haf.proper hac hane
  have hb := hbf.proper hbc hbne
  have hc := hcf.proper hcc hcne
  have hset : ∀ {s t u : Simplex}, u.Perm (distinct (s ++ t)) →
      u.Nodup ∧ ∀ v, v ∈ u ↔ v ∈ s ∨ v ∈ t := by
    intro s t u hperm
    refine ⟨hperm.nodup_iff.2 (nodup_distinct _), ?_⟩
    intro v
    rw [hperm.mem_iff, mem_distinct, List.mem_append]
  refine ⟨?_, ?_, join_comm haf.forest ha hbf.forest hb,
    join_assoc haf.forest ha hbf.forest hb hcf.forest hc⟩
  · rcases join_cases haf.forest ha hbf.forest hb with ⟨r, hr, hab⟩ | ⟨hab, f, hr, -⟩
    · rw [hr]
      exact ⟨fun _ => hab.concordant, fun _ => rfl⟩
    · rw [hr]
      refine ⟨?_, fun h => absurd h hab⟩
      intro h
      cases h
  · intro r hr
    rcases join_cases haf.forest ha hbf.forest hb with ⟨q, hq, hab⟩ | ⟨-, f, hf, -⟩
    · rw [hr] at hq
      cases hq
      constructor
      · intro u hu
        obtain ⟨s, hs, t, ht, hperm⟩ := hab.source u hu
        exact ⟨s, hs, t, ht, hset hperm⟩
      · intro s hs t ht
        obtain ⟨u, hu, hperm⟩ := hab.span s hs t ht
        exact ⟨u, hu, hset hperm⟩
    · rw [hr] at hf
      cases hf

/-- Two edges that share an end under two names, and a point apart from them. -/
theorem join_of_canonical_edges :
    let a := ofSimplices [["a", "b"]] ((Partition.empty.addAll ["a", "b"]).union "b" "c").2
    let b := ofSimplices [["b", "d"]] ((Partition.empty.addAll ["b", "d"]).union "b" "c").2
    let c := ofSimplices [["e"]] (Partition.empty.addAll ["e"])
    (a.join b).isOk ∧ Concordant a b ∧ Concur SameSimplices (a.join b) (b.join a) ∧
    Concur SameSimplices (a.join b >>= fun r => r.join c) (b.join c >>= fun r => a.join r) := by
  intro a b c
  have hlit (vs : List String) : ((Partition.empty : Partition String).addAll vs).Forest :=
    Partition.addAll_forest Partition.empty_forest vs
  have ha : a.Formed ∧ a.Canonical ∧ a.maximal ≠ [] :=
    ⟨formed_ofSimplices (Partition.union_joined (hlit _) "b" "c").1.forest _,
      ⟨by decide +kernel, by decide +kernel, by decide +kernel, by decide +kernel⟩,
      by decide +kernel⟩
  have hb : b.Formed ∧ b.Canonical ∧ b.maximal ≠ [] :=
    ⟨formed_ofSimplices (Partition.union_joined (hlit _) "b" "c").1.forest _,
      ⟨by decide +kernel, by decide +kernel, by decide +kernel, by decide +kernel⟩,
      by decide +kernel⟩
  have hc : c.Formed ∧ c.Canonical ∧ c.maximal ≠ [] :=
    ⟨formed_ofSimplices (hlit _) _,
      ⟨by decide +kernel, by decide +kernel, by decide +kernel, by decide +kernel⟩,
      by decide +kernel⟩
  have hok : (a.join b).isOk := by decide +kernel
  -- from here on only what was shown of the three matters
  clear_value a b c
  have hall : ∀ k ∈ [a, b, c], k.Formed ∧ k.Canonical ∧ k.maximal ≠ [] := by
    simp only [List.forall_mem_cons]
    exact ⟨ha, hb, hc, by simp⟩
  obtain ⟨hiff, -, hcomm, hassoc⟩ := join_of_canonical a b c hall
  exact ⟨hok, hiff.1 hok, hcomm, hassoc⟩

end SimplexScript.Complex
