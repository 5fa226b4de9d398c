import Mathlib.Algebra.Ring.Nat
import SimplexScript.Proofs.Partition.Replay

/-!
# Ranks and sizes

A rank grows only when two classes of equal rank become one, so a root of rank
`n` stands for at least `2 ^ n` nodes. Relinking moves no root and no rank.
Ranks grow along every path, so a search visits few nodes: its two loops are
stated here as they run, round by round and with no bound of their own, and
end within the binary logarithm of the number of nodes.
-/

set_option autoImplicit false

namespace SimplexScript.Partition

variable {α : Type} [DecidableEq α] {p q : Partition α}

def weight (p : Partition α) (r : α) : Nat := p.nodes.countP fun x => decide (p.root x = r)

theorem weight_le_size (p : Partition α) (r : α) : p.weight r ≤ p.size := by
  have h : p.weight r ≤ p.nodes.length := List.countP_le_length
  simpa [size, nodes, Table.keys] using h

/-- A forest in which the rank of a root is at most the binary logarithm of its weight. -/
structure Balanced (p : Partition α) : Prop extends Forest p where
  two_pow_rank_le : ∀ r ∈ p.nodes, p.root r = r → 2 ^ p.rank r ≤ p.weight r

theorem Relinked.weight (h : Relinked p q) (r : α) : q.weight r = p.weight r := by
  simp only [Partition.weight, h.nodes, h.root]

namespace Balanced

theorem relinked (hp : p.Balanced) (h : Relinked p q) : q.Balanced where
  toForest := h.forest
  two_pow_rank_le r hr hroot := by
    rw [h.nodes] at hr
    rw [h.root] at hroot
    rw [h.rank, h.weight]
    exact hp.two_pow_rank_le r hr hroot

theorem empty : (Partition.empty : Partition α).Balanced where
  toForest := empty_forest
  two_pow_rank_le r hr := absurd hr (not_mem_empty r)

theorem add (hp : p.Balanced) (x : α) : (p.add x).Balanced := by
  by_cases hx : x ∈ p.nodes
  · rw [add_of_mem hx]
    exact hp
  refine ⟨add_forest hp.toForest x, ?_⟩
  intro r hr hroot
  rw [root_add hp.toForest] at hroot
  have hweight : (p.add x).weight r = p.weight r + if x = r then 1 else 0 := by
    simp only [weight, root_add hp.toForest, nodes_add, if_neg hx, List.countP_append,
      List.countP_singleton, root_of_not_mem hp.toForest hx, decide_eq_true_eq]
  rw [rank_add, hweight]
  rcases mem_nodes_add.1 hr with hr | rfl
  · exact Nat.le_add_right_of_le (hp.two_pow_rank_le r hr hroot)
  · rw [rank_of_not_mem hx, if_pos rfl, Nat.pow_zero]
    exact Nat.le_add_left 1 _

theorem addAll (hp : p.Balanced) (xs : List α) : (p.addAll xs).Balanced := by
  induction xs generalizing p with
  | nil => exact hp
  | cons x xs ih => exact ih (hp.add x)

end Balanced

section Join

theorem Joined.weight {x y w : α} (h : Joined p q x y w) (hnodes : q.nodes = p.nodes)
    (hne : p.root x ≠ p.root y) (hw : w = p.root x ∨ w = p.root y) :
    q.weight w = p.weight (p.root x) + p.weight (p.root y) := by
  have hcount : ∀ zs : List α, zs.countP (fun z => decide (q.root z = w)) =
      zs.countP (fun z => decide (p.root z = p.root x)) +
        zs.countP fun z => decide (p.root z = p.root y) := by
    intro zs
    induction zs with
    | nil => rfl
    | cons z zs ih =>
      have hother : p.root z ≠ p.root x → p.root z ≠ p.root y → p.root z ≠ w := by
        rcases hw with rfl | rfl
        · exact fun h _ => h
        · exact fun _ h => h
      rw [List.countP_cons, List.countP_cons, List.countP_cons, ih]
      simp only [h.root, decide_eq_true_eq]
      by_cases hx : p.root z = p.root x
      · have hy : p.root z ≠ p.root y := fun e => hne (hx.symm.trans e)
        simp only [hx, true_or, if_true, hne, if_false]
        omega
      · by_cases hy : p.root z = p.root y
        · simp only [hy, or_true, if_true, Ne.symm hne, if_false]
          omega
        · simp only [hx, hy, or_self, if_false, hother hx hy]
          omega
  rw [Partition.weight, hnodes, hcount]
  rfl

theorem Joined.weight_of_ne {x y w r : α} (h : Joined p q x y w) (hnodes : q.nodes = p.nodes)
    (hw : w ≠ r) (hx : p.root x ≠ r) (hy : p.root y ≠ r) : q.weight r = p.weight r := by
  have hroot : ∀ z, q.root z = r ↔ p.root z = r := by
    intro z
    rw [h.root]
    split
    next hz =>
      constructor
      · exact fun e => absurd e hw
      · rintro rfl
        rcases hz with hz | hz
        · exact absurd hz.symm hx
        · exact absurd hz.symm hy
    next => exact Iff.rfl
  simp only [Partition.weight, hnodes, hroot]

/-- A rank that a join raises is paid for by both sides: it had two classes of equal rank. -/
theorem Joined.balanced {x y w : α} (hp : p.Balanced) (h : Joined p q x y w) (hx : x ∈ p.nodes)
    (hy : y ∈ p.nodes) (hne : p.root x ≠ p.root y)
    (hwin : w = if p.rank (p.root x) < p.rank (p.root y) then p.root y else p.root x)
    (hrank : ∀ z, q.rank z = if p.rank (p.root x) = p.rank (p.root y) ∧ p.root x = z
      then p.rank z + 1 else p.rank z) : q.Balanced := by
  have hnodes : q.nodes = p.nodes := by rw [h.nodes, add_of_mem hx, add_of_mem hy]
  have hheavy : ∀ z ∈ p.nodes, 2 ^ p.rank (p.root z) ≤ p.weight (p.root z) := fun z hz =>
    hp.two_pow_rank_le _ (root_mem hp.toForest hz) (root_root hp.toForest z)
  have hrx := hheavy x hx
  have hry := hheavy y hy
  refine ⟨h.forest, ?_⟩
  intro r hr hroot
  rw [hnodes] at hr
  rw [h.root] at hroot
  rw [hrank]
  by_cases hside : p.root r = p.root x ∨ p.root r = p.root y
  · obtain rfl : w = r := by rwa [if_pos hside] at hroot
    by_cases hlt : p.rank (p.root x) < p.rank (p.root y)
    · rw [if_pos hlt] at hwin
      rw [if_neg fun htie => Nat.ne_of_lt hlt htie.1, h.weight hnodes hne (Or.inr hwin), hwin]
      omega
    · rw [if_neg hlt] at hwin
      rw [h.weight hnodes hne (Or.inl hwin), hwin]
      by_cases htie : p.rank (p.root x) = p.rank (p.root y)
      · rw [if_pos ⟨htie, rfl⟩, Nat.pow_succ]
        rw [← htie] at hry
        omega
      · rw [if_neg fun h => htie h.1]
        omega
  · rw [if_neg hside] at hroot
    have hxr : p.root x ≠ r := fun e => hside (Or.inl (hroot.trans e.symm))
    have hyr : p.root y ≠ r := fun e => hside (Or.inr (hroot.trans e.symm))
    have hwr : w ≠ r := by
      rw [hwin]
      split
      · exact hyr
      · exact hxr
    rw [if_neg fun h => hxr h.2, h.weight_of_ne hnodes hwr hxr hyr]
    exact hp.two_pow_rank_le r hr hroot

end Join

namespace Balanced

theorem union (hp : p.Balanced) (x y : α) : (p.union x y).2.Balanced := by
  have hroot : ∀ z, ((p.add x).add y).root z = p.root z := fun z => by
    rw [root_add (add_forest hp.toForest x), root_add hp.toForest]
  have hrank : ∀ z, ((p.add x).add y).rank z = p.rank z := fun z => by rw [rank_add, rank_add]
  have hx : x ∈ ((p.add x).add y).nodes :=
    mem_nodes_add.2 (Or.inl (mem_nodes_add.2 (Or.inr rfl)))
  have hy : y ∈ ((p.add x).add y).nodes := mem_nodes_add.2 (Or.inr rfl)
  obtain ⟨hj, hwin⟩ := union_joined hp.toForest x y
  by_cases heq : p.root x = p.root y
  · -- nothing is hung, so the two searches are all that happens
    apply ((hp.add x).add y).relinked
    refine ⟨hj.forest, hj.nodes, ?_, ?_⟩
    · intro z
      rw [rank_union_eq hp.toForest, if_neg fun h => h.1 heq, hrank]
    · intro z
      simp only [hj.root, hwin, hroot, heq, or_self, ite_self]
      split
      next hz => exact hz.symm
      next => rfl
  · apply Joined.balanced ((hp.add x).add y) (x := x) (y := y) (w := (p.union x y).1) _ hx hy
    · rwa [hroot, hroot]
    · rw [hwin, hroot, hroot, hrank, hrank]
    · intro z
      rw [rank_union_eq hp.toForest, hroot, hroot, hrank, hrank, hrank]
      simp only [ne_eq, heq, not_false_eq_true, true_and]
    · refine ⟨hj.forest, ?_, ?_⟩
      · rw [hj.nodes, add_of_mem hx, add_of_mem hy]
      · intro z
        rw [hj.root, hroot, hroot, hroot]

theorem unions (hp : p.Balanced) (pairs : List (α × α)) : (p.unions pairs).Balanced := by
  induction pairs generalizing p with
  | nil => exact hp
  | cons e pairs ih => exact ih (hp.union e.1 e.2)

theorem merge (p q : Partition α) : (p.merge q).Balanced := by
  rw [merge_eq_unions]
  exact ((empty.addAll p.nodes).addAll q.nodes).unions _

theorem replay (p : Partition α) : p.replay.Balanced := by
  rw [Partition.replay, absorb_eq_unions]
  exact empty.unions _

theorem after (hp : p.Balanced) (r : Request α) : (r.after p).Balanced := by
  cases r with
  | add x => exact hp.add x
  | find x => exact (hp.add x).relinked (find_relinked hp.toForest x)
  | union x y => exact hp.union x y
  | equivalent x y => exact hp.relinked (equivalent_relinked hp.toForest x y)
  | classOf x => exact hp.relinked (classOf_relinked hp.toForest x)
  | classes => exact hp.relinked (classes_relinked hp.toForest)

end Balanced

/-- The partitions that requests, merges and copies leave behind, their operands among them. -/
inductive Reached : Partition α → Prop
  | empty : Reached .empty
  | after {p : Partition α} (hp : Reached p) (r : Request α) : Reached (r.after p)
  | merged {p q : Partition α} (hp : Reached p) (hq : Reached q) : Reached (p.combine q).1
  | first {p q : Partition α} (hp : Reached p) (hq : Reached q) : Reached (p.combine q).2.1
  | second {p q : Partition α} (hp : Reached p) (hq : Reached q) : Reached (p.combine q).2.2
  | copy {p : Partition α} (hp : Reached p) : Reached p.copy.1
  | copied {p : Partition α} (hp : Reached p) : Reached p.copy.2

theorem Reached.balanced (h : Reached p) : p.Balanced := by
  induction h with
  | empty => exact .empty
  | after _ r ih => exact ih.after r
  | merged _ _ ihp ihq =>
    rw [combine_fst ihp.toForest ihq.toForest]
    exact .merge _ _
  | first _ _ ihp ihq => exact ihp.relinked (combine_relinked ihp.toForest ihq.toForest).1
  | second _ _ ihp ihq => exact ihq.relinked (combine_relinked ihp.toForest ihq.toForest).2
  | copy _ ih =>
    rw [copy_fst ih.toForest]
    exact .replay _
  | copied _ ih => exact ih.relinked (copy_relinked ih.toForest)

section Loops

/-- The search for the root of `x` ends at `r` after `n` rounds. Each round reads the entry of the
node it stands at. -/
inductive Climbs (p : Partition α) : Nat → α → α → Prop
  | done {x : α} {l : Link α} (hx : Table.get? p.links x = some l) (h : l.parent = x) :
      Climbs p 0 x x
  | round {n : Nat} {x r : α} {l : Link α} (hx : Table.get? p.links x = some l)
      (h : l.parent ≠ x) (rest : Climbs p n l.parent r) : Climbs p (n + 1) x r

/-- Linking the nodes on the way from `x` to `r` ends after `n` rounds and leaves `q` of `p`. Each
round reads the entry of its node before it sets it. -/
inductive Relinks (r : α) : Nat → α → Partition α → Partition α → Prop
  | done {p : Partition α} : Relinks r 0 r p p
  | round {n : Nat} {x : α} {p q : Partition α} {l : Link α}
      (hx : Table.get? p.links x = some l) (h : x ≠ r)
      (rest : Relinks r n l.parent (p.setParent x r) q) : Relinks r (n + 1) x p q

theorem exists_link {x : α} (hx : x ∈ p.nodes) :
    ∃ l, Table.get? p.links x = some l ∧ l.parent = p.parent x := by
  obtain ⟨l, hl⟩ := Table.exists_get?_of_mem_keys hx
  exact ⟨l, hl, by simp [parent, hl]⟩

theorem parent_eq_of_link {x : α} {l : Link α} (h : Table.get? p.links x = some l) :
    p.parent x = l.parent := by
  simp [parent, h]

theorem climbs_root (hp : p.Forest) {x : α} (hx : x ∈ p.nodes) : ∃ n, p.Climbs n x (p.root x) := by
  have hleads := leads_root hp x
  generalize p.root x = r at hleads
  induction hleads with
  | root hr =>
    obtain ⟨l, hl, hparent⟩ := exists_link hx
    exact ⟨0, .done hl (hparent.trans hr)⟩
  | step hne _ ih =>
    obtain ⟨l, hl, hparent⟩ := exists_link hx
    obtain ⟨n, hn⟩ := ih (hp.parent_mem _ hx)
    exact ⟨n + 1, .round hl (hparent ▸ hne) (hparent ▸ hn)⟩

namespace Climbs

theorem add_rank_le (hp : p.Forest) {n : Nat} {x r : α} (h : p.Climbs n x r) :
    n + p.rank x ≤ p.rank r := by
  induction h with
  | done _ _ => simp
  | @round n x r l hx hne _ ih =>
    rw [← parent_eq_of_link hx] at hne ih
    have hlt := hp.rank_lt x (mem_of_parent_ne hne) hne
    omega

theorem setParent (hp : p.Forest) {n : Nat} {z r : α} (h : p.Climbs n z r) {x : α} (y : α)
    (hxz : p.rank x < p.rank z) : (p.setParent x y).Climbs n z r := by
  have hget : ∀ z, p.rank x < p.rank z →
      Table.get? (p.setParent x y).links z = Table.get? p.links z := by
    intro z hz
    have hne : x ≠ z := by
      rintro rfl
      exact Nat.lt_irrefl _ hz
    rw [Partition.setParent, Table.get?_set, if_neg hne]
  induction h with
  | @done z l hz hroot => exact .done ((hget z hxz).trans hz) hroot
  | @round n z r l hz hne _ ih =>
    have hparent := parent_eq_of_link hz
    have hlt := hp.rank_lt z (mem_of_parent_ne (hparent ▸ hne)) (hparent ▸ hne)
    exact .round ((hget z hxz).trans hz) hne (ih (hparent ▸ Nat.lt_trans hxz hlt))

end Climbs

theorem relinks_relink {n m : Nat} (hp : p.Forest) {x r : α} (h : p.Climbs n x r)
    (hr : p.root x = r) (hnm : n ≤ m) : Relinks r n x p (relink r m x p) := by
  induction n generalizing p x m with
  | zero =>
    cases h
    cases m <;> simpa [relink] using Relinks.done
  | succ n ih =>
    cases h with
    | @round _ _ _ l hx hne rest =>
      obtain ⟨m, rfl⟩ : ∃ k, m = k + 1 := ⟨m - 1, by omega⟩
      have hparent := parent_eq_of_link hx
      have hlt := hp.rank_lt x (mem_of_parent_ne (hparent ▸ hne)) (hparent ▸ hne)
      rw [hparent] at hlt
      have hxr : x ≠ r := by
        rintro rfl
        have hle := rest.add_rank_le hp
        omega
      have hlinks : Relinked p (p.setParent x r) := by
        subst hr
        exact setParent_relinked hp hxr
      rw [relink, if_neg hxr]
      refine .round hx hxr ?_
      rw [hparent]
      exact ih hlinks.forest (rest.setParent hp r hlt)
        (by rw [hlinks.root, ← hparent, root_parent hp, hr]) (by omega)

end Loops

/-- Whatever requests, merges and copies a partition has been through: every parent is a node, a
node below another has the smaller rank, and a root of rank `n` has a class of at least `2 ^ n`
nodes. So both loops of a search for `x`, which is added first if it is unknown, end after at most
the binary logarithm of the number of nodes, and every node they visit has an entry. -/
theorem search_ends_in_log_rounds (h : Reached p) :
    (∀ x ∈ p.nodes, p.parent x ∈ p.nodes) ∧
    (∀ x ∈ p.nodes, p.parent x ≠ x → p.rank x < p.rank (p.parent x)) ∧
    (∀ r ∈ p.nodes, p.parent r = r → 2 ^ p.rank r ≤ (p.classOf r).1.length) ∧
    ∀ x, ∃ n ≤ (p.add x).size.log2, (p.add x).Climbs n x (p.find x).1 ∧
      Relinks (p.find x).1 n x (p.add x) (p.find x).2 := by
  have hp := h.balanced
  refine ⟨hp.parent_mem, hp.rank_lt, ?_, ?_⟩
  · intro r hr hroot
    have hfix := root_of_parent_eq hp.toForest hroot
    have hsize : (p.classOf r).1.length = p.weight r := by
      rw [classOf_fst hp.toForest, block, if_pos (contains_iff.2 hr), hfix,
        ← List.countP_eq_length_filter]
      rfl
    rw [hsize]
    exact hp.two_pow_rank_le r hr hfix
  · intro x
    have hq := hp.add x
    have hx : x ∈ (p.add x).nodes := mem_nodes_add.2 (Or.inr rfl)
    obtain ⟨n, hn⟩ := climbs_root hq.toForest hx
    have hlog : n ≤ (p.add x).size.log2 := by
      have hrank : n ≤ (p.add x).rank ((p.add x).root x) := by
        have := hn.add_rank_le hq.toForest
        omega
      have hpow : 2 ^ n ≤ (p.add x).size :=
        calc 2 ^ n ≤ 2 ^ (p.add x).rank ((p.add x).root x) := Nat.pow_le_pow_right (by omega) hrank
          _ ≤ (p.add x).weight ((p.add x).root x) :=
            hq.two_pow_rank_le _ (root_mem hq.toForest hx) (root_root hq.toForest x)
          _ ≤ (p.add x).size := weight_le_size _ _
      exact (Nat.le_log2 (by have := Nat.two_pow_pos n; omega)).2 hpow
    have hsize : n ≤ (p.add x).size := Nat.le_trans hlog (Nat.log2_le_self _)
    exact ⟨n, hlog, hn, relinks_relink hq.toForest hn rfl hsize⟩

/-- Two merged chains of two nodes: the search for the last node takes two rounds of at most two. -/
theorem search_ends_in_log_rounds_tied :
    let u := Request.afterAll [Request.union "a" "b"]
    let w := Request.afterAll [Request.union "c" "d"]
    let p := Request.after (u.combine w).1 (.union "a" "d")
    Reached p ∧ p.rank "a" = 2 ∧ 2 ^ p.rank "a" ≤ (p.classOf "a").1.length ∧
      p.parent (p.parent "d") = "a" ∧ p.parent "d" ≠ "a" ∧
      ∃ n ≤ 2, p.Climbs n "d" "a" ∧ Relinks "a" n "d" p (p.find "d").2 := by
  intro u w p
  have hu : Reached u := Reached.empty.after (.union "a" "b")
  have hw : Reached w := Reached.empty.after (.union "c" "d")
  have hp : Reached p := (hu.merged hw).after (.union "a" "d")
  obtain ⟨-, -, hweight, hloops⟩ := search_ends_in_log_rounds hp
  have hloop := hloops "d"
  have hfind : (p.find "d").1 = "a" := by decide +kernel
  have hsize : p.size.log2 = 2 := by decide +kernel
  rw [add_of_mem (by decide +kernel), hfind, hsize] at hloop
  exact ⟨hp, by decide +kernel, hweight "a" (by decide +kernel) (by decide +kernel),
    by decide +kernel, by decide +kernel, hloop⟩

end SimplexScript.Partition
