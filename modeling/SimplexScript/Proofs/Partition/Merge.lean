import Mathlib.Logic.Relation
import SimplexScript.Proofs.Partition.Union

/-!
# Merged partitions

The relation of a merged partition is the least equivalence that contains both
relations. Its representatives depend on ranks and on the order of nodes,
except where the two partitions never disagree about one: every join then
hangs a node that still stands alone below the representative that both give
it, and no representative moves.
-/

set_option autoImplicit false

namespace SimplexScript.Partition

variable {α : Type} [DecidableEq α] {p q : Partition α}

theorem root_ne_of_not_mem (hp : p.Forest) {x y : α} (hx : x ∉ p.nodes) (hne : x ≠ y) :
    p.root x ≠ p.root y := by
  intro h
  rw [root_of_not_mem hp hx] at h
  by_cases hy : y ∈ p.nodes
  · exact hx (h ▸ root_mem hp hy)
  · exact hne (h.trans (root_of_not_mem hp hy))

theorem same_iff (hp : p.Forest) {x y : α} : p.same x y = true ↔ p.root x = p.root y := by
  by_cases h : x = y
  · simp [same, h]
  by_cases hx : x ∈ p.nodes
  · by_cases hy : y ∈ p.nodes
    · simp [same, h, contains_iff.2 hx, contains_iff.2 hy]
    · have hne := root_ne_of_not_mem hp hy (Ne.symm h)
      simp [same, h, mt contains_iff.1 hy, hne.symm]
  · simp [same, h, mt contains_iff.1 hx, root_ne_of_not_mem hp hx h]

section Least

variable {E : α → α → Prop}

theorem root_union_least (hp : p.Forest) (hE : Equivalence E)
    (hroot : ∀ a b, p.root a = p.root b → E a b) {x y : α} (hxy : E x y) {a b : α}
    (h : (p.union x y).2.root a = (p.union x y).2.root b) : E a b := by
  have hj := (union_joined hp x y).1
  have hside : ∀ z, p.root z = p.root x ∨ p.root z = p.root y → E z x := by
    rintro z (hz | hz)
    · exact hroot z x hz
    · exact hE.trans (hroot z y hz) (hE.symm hxy)
  have hwin : p.root ((p.union x y).1) = p.root x ∨ p.root ((p.union x y).1) = p.root y := by
    rw [(union_joined hp x y).2]
    split
    · exact Or.inr (root_root hp y)
    · exact Or.inl (root_root hp x)
  rw [hj.root, hj.root] at h
  by_cases ha : p.root a = p.root x ∨ p.root a = p.root y
  · by_cases hb : p.root b = p.root x ∨ p.root b = p.root y
    · exact hE.trans (hside a ha) (hE.symm (hside b hb))
    · rw [if_pos ha, if_neg hb] at h
      rw [h, root_root hp] at hwin
      exact absurd hwin hb
  · by_cases hb : p.root b = p.root x ∨ p.root b = p.root y
    · rw [if_neg ha, if_pos hb] at h
      rw [← h, root_root hp] at hwin
      exact absurd hwin ha
    · rw [if_neg ha, if_neg hb] at h
      exact hroot a b h

theorem root_unions_least (hp : p.Forest) (hE : Equivalence E)
    (hroot : ∀ a b, p.root a = p.root b → E a b) {pairs : List (α × α)}
    (hpairs : ∀ e ∈ pairs, E e.1 e.2) {a b : α}
    (h : (p.unions pairs).root a = (p.unions pairs).root b) : E a b := by
  induction pairs generalizing p with
  | nil => exact hroot a b h
  | cons e pairs ih =>
    apply ih (union_joined hp e.1 e.2).1.forest
    · intro c d hcd
      exact root_union_least hp hE hroot (hpairs e (by simp)) hcd
    · exact fun d hd => hpairs d (by simp [hd])
    · exact h

theorem root_merge_least (hp : p.Forest) (hq : q.Forest) (hE : Equivalence E)
    (hleft : ∀ a b, p.root a = p.root b → E a b) (hright : ∀ a b, q.root a = q.root b → E a b)
    {a b : α} (h : (p.merge q).root a = (p.merge q).root b) : E a b := by
  have hbase := addAll_forest (addAll_forest (empty_forest (α := α)) p.nodes) q.nodes
  unfold merge at h
  rw [absorb_eq_unions _ q, absorb_eq_unions _ p] at h
  apply root_unions_least (unions_forest hbase _) hE _ _ h
  · intro c d hcd
    apply root_unions_least hbase hE _ _ hcd
    · intro x y hxy
      rw [root_addAll (addAll_forest empty_forest _), root_addAll (addAll_forest empty_forest _),
        root_empty_addAll, root_empty_addAll] at hxy
      exact hxy ▸ hE.refl x
    · intro e he
      obtain ⟨x, -, rfl⟩ := List.mem_map.1 he
      exact hleft _ _ (root_root hp x)
  · intro e he
    obtain ⟨x, -, rfl⟩ := List.mem_map.1 he
    exact hright _ _ (root_root hq x)

end Least

theorem mem_of_root_eq (hp : p.Forest) {x y : α} (h : p.root x = p.root y) (hne : x ≠ y) :
    x ∈ p.nodes ∧ y ∈ p.nodes := by
  constructor
  · by_contra hx
    exact root_ne_of_not_mem hp hx hne h
  · by_contra hy
    exact root_ne_of_not_mem hp hy hne.symm h.symm

theorem root_merge_of_left (hp : p.Forest) (q : Partition α) {x y : α}
    (h : p.root x = p.root y) : (p.merge q).root x = (p.merge q).root y := by
  by_cases hne : x = y
  · rw [hne]
  · obtain ⟨hx, hy⟩ := mem_of_root_eq hp h hne
    rw [← root_merge_left q hx, ← root_merge_left q hy, h]

theorem root_merge_of_right (p : Partition α) (hq : q.Forest) {x y : α}
    (h : q.root x = q.root y) : (p.merge q).root x = (p.merge q).root y := by
  by_cases hne : x = y
  · rw [hne]
  · obtain ⟨hx, hy⟩ := mem_of_root_eq hq h hne
    rw [← root_merge_right p hx, ← root_merge_right p hy, h]

theorem root_eq_of_eqvGen {r : α → α → Prop} (h : ∀ a b, r a b → p.root a = p.root b) {x y : α}
    (hxy : Relation.EqvGen r x y) : p.root x = p.root y := by
  induction hxy with
  | rel a b hab => exact h a b hab
  | refl a => rfl
  | symm a b _ ih => exact ih.symm
  | trans a b c _ _ ih ih' => exact ih.trans ih'

section Settling

/-- A join of two classes of equal rank raises the rank of its representative, and of nothing
else. -/
theorem rank_union_eq (hp : p.Forest) (x y z : α) :
    (p.union x y).2.rank z =
      if p.root x ≠ p.root y ∧ p.rank (p.root x) = p.rank (p.root y) ∧ p.root x = z
      then p.rank z + 1 else p.rank z := by
  have hrank : ∀ w, ((p.find x).2.find y).2.rank w = p.rank w := fun w => by
    rw [(find_find_relinked hp x y).rank, rank_add, rank_add]
  have hrx : (p.find x).1 = p.root x := find_fst hp x
  have hry : ((p.find x).2.find y).1 = p.root y := by
    rw [find_fst (find_relinked hp x).forest, (find_relinked hp x).root, root_add hp]
  simp only [union, hrx, hry, hrank]
  by_cases heq : p.root x = p.root y
  · simp [heq, hrank]
  · by_cases hlt : p.rank (p.root x) < p.rank (p.root y)
    · have hne : p.rank (p.root x) ≠ p.rank (p.root y) := Nat.ne_of_lt hlt
      simp [heq, hlt, hne, rank_setParent, hrank]
    · by_cases htie : p.rank (p.root x) = p.rank (p.root y)
      · by_cases hz : p.root x = z
        · subst hz
          simp [heq, htie, rank_setRank]
        · simp [heq, htie, hz, rank_setRank, rank_setParent, hrank]
      · simp [heq, hlt, htie, rank_setParent, hrank]

theorem rank_union_of_ne (hp : p.Forest) {x z : α} (hz : p.root x ≠ z) (y : α) :
    (p.union x y).2.rank z = p.rank z := by
  rw [rank_union_eq hp, if_neg]
  exact fun h => hz h.2.2

theorem root_union_self (hp : p.Forest) (x z : α) : (p.union x x).2.root z = p.root z := by
  obtain ⟨hj, hwin⟩ := union_joined hp x x
  rw [hj.root, hwin, ite_self]
  split
  next h => exact (h.elim id id).symm
  next => rfl

/-- Inside `S` every node is already where `f` sends it, or stands alone with the least rank. No
node outside has its root inside. -/
structure Settling (f : α → α) (S : α → Prop) (p : Partition α) : Prop where
  inside : ∀ z, S z → p.root z = f z ∨ p.root z = z ∧ p.rank z = 0
  outside : ∀ z, ¬ S z → ¬ S (p.root z)

/-- A pair that joins nothing, a node inside `S` below where `f` sends it, or nodes outside. -/
def Fits (f : α → α) (S : α → Prop) (e : α × α) : Prop :=
  e.1 = e.2 ∨ S e.2 ∧ e.1 = f e.2 ∨ ¬ S e.1 ∧ ¬ S e.2

variable {f : α → α} {S : α → Prop}

namespace Settling

theorem root_mem (hf : ∀ z, S z → S (f z)) (h : Settling f S p) {z : α} (hz : S z) :
    S (p.root z) := by
  rcases h.inside z hz with hroot | ⟨hroot, -⟩
  · exact hroot ▸ hf z hz
  · exact hroot.symm ▸ hz

theorem union_self (hp : p.Forest) (h : Settling f S p) (x : α) :
    Settling f S (p.union x x).2 where
  inside z hz := by
    rw [root_union_self hp, rank_union_eq hp, if_neg fun hne => hne.1 rfl]
    exact h.inside z hz
  outside z hz := by
    rw [root_union_self hp]
    exact h.outside z hz

theorem union_outside (hp : p.Forest) (hf : ∀ z, S z → S (f z)) (h : Settling f S p) {x y : α}
    (hx : ¬ S x) (hy : ¬ S y) :
    Settling f S (p.union x y).2 ∧ ∀ z, S z → (p.union x y).2.root z = p.root z := by
  obtain ⟨hj, hwin⟩ := union_joined hp x y
  have hkeep : ∀ z, S z → (p.union x y).2.root z = p.root z := by
    intro z hz
    have hroot := h.root_mem hf hz
    rw [hj.root, if_neg]
    rintro (he | he)
    · exact h.outside x hx (he ▸ hroot)
    · exact h.outside y hy (he ▸ hroot)
  refine ⟨⟨?_, ?_⟩, hkeep⟩
  · intro z hz
    have hne : p.root x ≠ z := fun he => h.outside x hx (he.symm ▸ hz)
    rw [hkeep z hz, rank_union_of_ne hp hne]
    exact h.inside z hz
  · intro z hz
    rw [hj.root, hwin]
    split
    · split
      · exact h.outside y hy
      · exact h.outside x hx
    · exact h.outside z hz

theorem root_target (hf : ∀ z, S z → S (f z)) (hff : ∀ z, S z → f (f z) = f z)
    (h : Settling f S p) {x : α} (hx : S x) : p.root (f x) = f x := by
  rcases h.inside (f x) (hf x hx) with hroot | ⟨hroot, -⟩
  · rw [hroot, hff x hx]
  · exact hroot

theorem target_eq (hff : ∀ z, S z → f (f z) = f z) (h : Settling f S p) {x z : α} (hx : S x)
    (hz : S z) (hzx : p.root z = f x ∨ p.root z = p.root x) : f z = f x := by
  rcases h.inside z hz with hfz | ⟨hzz, -⟩
  · rcases hzx with hzx | hzx
    · exact hfz.symm.trans hzx
    · rcases h.inside x hx with hxx | ⟨hxx, -⟩
      · exact hfz.symm.trans (hzx.trans hxx)
      · have hxz : f z = x := hfz.symm.trans (hzx.trans hxx)
        rw [← hxz, hff z hz]
  · rcases hzx with hzx | hzx
    · rw [← hzz, hzx, hff x hx]
    · rcases h.inside x hx with hxx | ⟨hxx, -⟩
      · rw [← hzz, hzx, hxx, hff x hx]
      · rw [← hzz, hzx, hxx]

theorem union_inside (hp : p.Forest) (hf : ∀ z, S z → S (f z)) (hff : ∀ z, S z → f (f z) = f z)
    (h : Settling f S p) {x : α} (hx : S x) :
    Settling f S (p.union (f x) x).2 ∧
      ∀ z, S z → z = x ∨ p.root z = f z → (p.union (f x) x).2.root z = f z := by
  obtain ⟨hj, hwin⟩ := union_joined hp (f x) x
  have hr := h.root_target hf hff hx
  have hw : (p.union (f x) x).1 = f x := by
    rw [hwin, hr]
    rcases h.inside x hx with hx | hx
    · rw [hx, if_neg (Nat.lt_irrefl _)]
    · rw [hx.1, hx.2, if_neg (Nat.not_lt_zero _)]
  have hroot := hj.root
  rw [hw, hr] at hroot
  refine ⟨⟨?_, ?_⟩, ?_⟩
  · intro z hz
    by_cases hm : p.root z = f x ∨ p.root z = p.root x
    · exact Or.inl (by rw [hroot, if_pos hm, h.target_eq hff hx hz hm])
    · rw [hroot, if_neg hm]
      rcases h.inside z hz with hfz | ⟨hzz, hrank⟩
      · exact Or.inl hfz
      · have hne : p.root (f x) ≠ z := by
          rintro rfl
          exact hm (Or.inl (hzz.trans hr))
        exact Or.inr ⟨hzz, by rw [rank_union_of_ne hp hne, hrank]⟩
  · intro z hz
    rw [hroot, if_neg]
    · exact h.outside z hz
    · rintro (he | he)
      · exact h.outside z hz (he.symm ▸ hf x hx)
      · exact h.outside z hz (he.symm ▸ h.root_mem hf hx)
  · intro z hz hzx
    by_cases hm : p.root z = f x ∨ p.root z = p.root x
    · rw [hroot, if_pos hm, h.target_eq hff hx hz hm]
    · rw [hroot, if_neg hm]
      rcases hzx with rfl | hzx
      · exact absurd (Or.inr rfl) hm
      · exact hzx

/-- One join that fits settles the node that it is about and unsettles none. -/
theorem union (hp : p.Forest) (hf : ∀ z, S z → S (f z)) (hff : ∀ z, S z → f (f z) = f z)
    (h : Settling f S p) {e : α × α} (he : Fits f S e) :
    Settling f S (p.union e.1 e.2).2 ∧
      ∀ z, S z → e = (f z, z) ∨ p.root z = f z → (p.union e.1 e.2).2.root z = f z := by
  obtain ⟨a, b⟩ := e
  rcases he with heq | ⟨hb, heq⟩ | ⟨ha, hb⟩
  · obtain rfl : a = b := heq
    refine ⟨h.union_self hp a, ?_⟩
    rintro z hz (hza | hroot)
    · obtain ⟨hfz, rfl⟩ := Prod.ext_iff.1 hza
      have hfz : a = f a := hfz
      rw [root_union_self hp, ← hfz]
      rcases h.inside a hz with hroot | ⟨hroot, -⟩
      · exact hroot.trans hfz.symm
      · exact hroot
    · rw [root_union_self hp, hroot]
  · obtain rfl : a = f b := heq
    obtain ⟨hs, hkeep⟩ := h.union_inside hp hf hff hb
    refine ⟨hs, ?_⟩
    rintro z hz (hzb | hroot)
    · exact hkeep z hz (Or.inl (Prod.ext_iff.1 hzb).2.symm)
    · exact hkeep z hz (Or.inr hroot)
  · obtain ⟨hs, hkeep⟩ := h.union_outside hp hf ha hb
    refine ⟨hs, ?_⟩
    rintro z hz (hzb | hroot)
    · obtain ⟨-, rfl⟩ := Prod.ext_iff.1 hzb
      exact absurd hz hb
    · exact (hkeep z hz).trans hroot

theorem unions (hf : ∀ z, S z → S (f z)) (hff : ∀ z, S z → f (f z) = f z) {pairs : List (α × α)}
    (hp : p.Forest) (h : Settling f S p) (hpairs : ∀ e ∈ pairs, Fits f S e) {z : α} (hz : S z)
    (hset : (f z, z) ∈ pairs ∨ p.root z = f z) : (p.unions pairs).root z = f z := by
  induction pairs generalizing p with
  | nil =>
    rcases hset with hmem | hroot
    · cases hmem
    · exact hroot
  | cons e pairs ih =>
    obtain ⟨hs, hkeep⟩ := h.union hp hf hff (hpairs e (by simp))
    apply ih (union_joined hp e.1 e.2).1.forest hs fun d hd => hpairs d (by simp [hd])
    rcases hset with hmem | hroot
    · rcases List.mem_cons.1 hmem with he | hmem
      · exact Or.inr (hkeep z hz (Or.inl he.symm))
      · exact Or.inl hmem
    · exact Or.inr (hkeep z hz (Or.inr hroot))

end Settling

theorem rank_addAll (p : Partition α) (xs : List α) (z : α) : (p.addAll xs).rank z = p.rank z := by
  induction xs generalizing p with
  | nil => rfl
  | cons x xs ih => exact (ih (p.add x)).trans (rank_add p x z)

def rootPairs (p : Partition α) : List (α × α) := p.nodes.map fun x => (p.root x, x)

theorem unions_append (p : Partition α) (es ds : List (α × α)) :
    p.unions (es ++ ds) = (p.unions es).unions ds := List.foldl_append

theorem merge_eq_unions (p q : Partition α) :
    p.merge q = ((empty.addAll p.nodes).addAll q.nodes).unions (p.rootPairs ++ q.rootPairs) := by
  rw [merge, absorb_eq_unions, absorb_eq_unions, unions_append]
  rfl

theorem settling_empty (f : α → α) (S : α → Prop) (xs ys : List α) :
    Settling f S ((empty.addAll xs).addAll ys) := by
  have hroot : ∀ z, (((empty : Partition α).addAll xs).addAll ys).root z = z := fun z => by
    rw [root_addAll (addAll_forest empty_forest _), root_empty_addAll]
  refine ⟨fun z _ => Or.inr ⟨hroot z, ?_⟩, fun z hz => (hroot z).symm ▸ hz⟩
  rw [rank_addAll, rank_addAll, rank_of_not_mem (not_mem_empty z)]

theorem root_merge_of_fits (hf : ∀ z, S z → S (f z)) (hff : ∀ z, S z → f (f z) = f z)
    (hp : ∀ e ∈ p.rootPairs, Fits f S e) (hq : ∀ e ∈ q.rootPairs, Fits f S e) {z : α} (hz : S z)
    (hset : (f z, z) ∈ p.rootPairs ++ q.rootPairs) : (p.merge q).root z = f z := by
  rw [merge_eq_unions]
  apply (settling_empty f S p.nodes q.nodes).unions hf hff _ _ hz (Or.inl hset)
  · exact addAll_forest (addAll_forest empty_forest _) _
  · intro e he
    rcases List.mem_append.1 he with he | he
    · exact hp e he
    · exact hq e he

/-- Partitions that give every shared node one representative keep all of them when merged. -/
theorem root_merge_of_agree (hp : p.Forest) (hq : q.Forest)
    (h : ∀ x ∈ p.nodes, x ∈ q.nodes → p.root x = q.root x) :
    (∀ x ∈ p.nodes, (p.merge q).root x = p.root x) ∧
      ∀ x ∈ q.nodes, (p.merge q).root x = q.root x := by
  let f := fun z => if z ∈ p.nodes then p.root z else q.root z
  have hfp : ∀ x ∈ p.nodes, p.root x = f x := fun x hx => (if_pos hx).symm
  have hfq : ∀ x ∈ q.nodes, q.root x = f x := by
    intro x hx
    by_cases hxp : x ∈ p.nodes
    · exact (h x hxp hx).symm.trans (hfp x hxp)
    · exact (if_neg hxp).symm
  have hff : ∀ z, f (f z) = f z := by
    intro z
    by_cases hz : z ∈ p.nodes
    · rw [← hfp z hz, ← hfp _ (root_mem hp hz), root_root hp]
    · by_cases hzq : z ∈ q.nodes
      · rw [← hfq z hzq, ← hfq _ (root_mem hq hzq), root_root hq]
      · have hfz : f z = z := (if_neg hz).trans (root_of_not_mem hq hzq)
        rw [hfz, hfz]
  have hmerge : ∀ z, (f z, z) ∈ p.rootPairs ++ q.rootPairs → (p.merge q).root z = f z := by
    intro z hz
    apply root_merge_of_fits (S := fun _ => True) (fun _ _ => trivial) (fun z _ => hff z) _ _
      trivial hz
    · intro e he
      obtain ⟨x, hx, rfl⟩ := List.mem_map.1 he
      exact Or.inr (Or.inl ⟨trivial, hfp x hx⟩)
    · intro e he
      obtain ⟨x, hx, rfl⟩ := List.mem_map.1 he
      exact Or.inr (Or.inl ⟨trivial, hfq x hx⟩)
  constructor
  · intro x hx
    rw [hfp x hx]
    exact hmerge x (List.mem_append_left _ (List.mem_map.2 ⟨x, hx, by rw [hfp x hx]⟩))
  · intro x hx
    rw [hfq x hx]
    exact hmerge x (List.mem_append_right _ (List.mem_map.2 ⟨x, hx, by rw [hfq x hx]⟩))

end Settling

end SimplexScript.Partition
