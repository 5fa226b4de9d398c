import SimplexScript.Complex.Algebra
import SimplexScript.Proofs.Language.Outcome

/-!
# Outcomes of the algebra

How each operation on complexes can end. The faults are those of its own
checks, and behind the checks stands one quotient, so a condition on results
needs to be shown of quotients alone.
-/

set_option autoImplicit false

namespace SimplexScript.Complex

theorem canonicalAll_eq_ok {operation : String} {p : Partition String} {ss ts : List Simplex}
    (h : canonicalAll operation p ss = .ok ts) :
    ts = ss.map (image p) ∧ ∀ s ∈ ss, (image p s).length = s.length := by
  induction ss generalizing ts with
  | nil =>
    cases h
    simp
  | cons s ss ih =>
    by_cases hs : (image p s).length = s.length
    · rw [canonicalAll, canonical, if_pos hs] at h
      cases hr : canonicalAll operation p ss with
      | error e => simp [hr, bind, Except.bind] at h
      | ok us =>
        obtain ⟨hus, hlen⟩ := ih hr
        simp only [hr, bind, Except.bind, pure, Except.pure, Except.ok.injEq] at h
        subst h
        refine ⟨by simp [hus], ?_⟩
        intro u hu
        rcases List.mem_cons.1 hu with rfl | hu
        · exact hs
        · exact hlen u hu
    · rw [canonicalAll, canonical, if_neg hs] at h
      cases h

theorem canonicalAll_eq_error {operation : String} {p : Partition String} {ss : List Simplex}
    {e : Fault} (h : canonicalAll operation p ss = .error e) :
    ∃ s t, e = .degenerateSimplex operation s t := by
  induction ss with
  | nil => cases h
  | cons s ss ih =>
    by_cases hs : (image p s).length = s.length
    · rw [canonicalAll, canonical, if_pos hs] at h
      cases hr : canonicalAll operation p ss with
      | error f =>
        simp only [hr, bind, Except.bind, Except.error.injEq] at h
        subst h
        exact ih hr
      | ok us => simp [hr, bind, Except.bind, pure, Except.pure] at h
    · rw [canonicalAll, canonical, if_neg hs] at h
      cases h
      exact ⟨s, _, rfl⟩

section Yields

variable {good : Complex → Prop} {fault : Fault → Prop} {k l : Complex}

theorem quotient_yields {operation : String} {p : Partition String} {ss : List Simplex}
    (hdeg : ∀ s t, fault (.degenerateSimplex operation s t))
    (hgood : (∀ s ∈ ss, (image p s).length = s.length) →
      good (ofSimplices (ss.map (image p)) (p.addAll ss.flatten))) :
    Yields (quotient operation p ss) good fault := by
  unfold quotient
  cases h : canonicalAll operation p ss with
  | error e =>
    obtain ⟨s, t, rfl⟩ := canonicalAll_eq_error h
    exact hdeg s t
  | ok ts =>
    obtain ⟨rfl, hlen⟩ := canonicalAll_eq_ok h
    exact hgood hlen

theorem union_yields
    (hdis : ∀ e, disagreement k l = some e → ∀ d, fault (.incompatibleIdentification "union" d))
    (hq : Yields (quotient "union" (k.partition.merge l.partition) (k.maximal ++ l.maximal))
      good fault) : Yields (k.union l) good fault := by
  unfold Complex.union
  cases h : disagreement k l with
  | none => exact hq
  | some e => exact hdis e h _

theorem resolve_yields (hnf : ∀ v operand, fault (.vertexNotFound v operand)) (operand : Operand)
    (v : String) : Yields (resolve k operand v)
      (fun r => v ∈ k.partition.nodes ∧ r = k.partition.root v) fault := by
  unfold resolve
  split
  next h =>
    rw [Bool.and_eq_true] at h
    exact ⟨(Table.contains_iff _ _).1 h.1, rfl⟩
  next => exact hnf v operand

theorem resolveAll_yields (hnf : ∀ v operand, fault (.vertexNotFound v operand))
    (mapping : Mapping) : Yields (resolveAll k l mapping) (fun resolved =>
      (∀ e ∈ mapping, e.1 ∈ k.partition.nodes ∧ e.2 ∈ l.partition.nodes) ∧
      resolved = mapping.map fun e => (k.partition.root e.1, l.partition.root e.2)) fault := by
  induction mapping with
  | nil => exact ⟨by simp, rfl⟩
  | cons e rest ih =>
    obtain ⟨a, b⟩ := e
    apply (resolve_yields hnf .first a).bind
    rintro ra ⟨ha, rfl⟩
    apply (resolve_yields hnf .second b).bind
    rintro rb ⟨hb, rfl⟩
    apply ih.bind
    rintro others ⟨hrest, rfl⟩
    refine ⟨?_, rfl⟩
    intro e he
    rcases List.mem_cons.1 he with rfl | he
    · exact ⟨ha, hb⟩
    · exact hrest e he

theorem checkClasses_fault (hconf : ∀ d, fault (.conflictingMapping d))
    (forward backward : Table String String) (pairs : Mapping) :
    Yields (checkClasses forward backward pairs) (fun _ => True) fault := by
  induction pairs generalizing forward backward with
  | nil => trivial
  | cons e rest ih =>
    obtain ⟨a, b⟩ := e
    rw [checkClasses]
    split
    · exact hconf _
    · split
      · exact hconf _
      · exact ih _ _

theorem checkConsistency_yields {mapping : Mapping}
    (hinc : ∀ e, (pairs mapping).find? (fun e =>
        k.identifies e.1.1 e.2.1 != l.identifies e.1.2 e.2.2) = some e →
      ∀ d, fault (.incompatibleIdentification "glue" d)) :
    Yields (checkConsistency k l mapping) (fun _ => True) fault := by
  unfold checkConsistency
  dsimp only
  split
  next h => exact hinc _ h _
  next => trivial

theorem glue_yields {mapping : Mapping} (hnf : ∀ v operand, fault (.vertexNotFound v operand))
    (hconf : ∀ d, fault (.conflictingMapping d))
    (hcons : checkClasses [] [] (mapping.map fun e =>
        (k.partition.root e.1, l.partition.root e.2)) = .ok () →
      (∀ e ∈ mapping, e.1 ∈ k.partition.nodes ∧ e.2 ∈ l.partition.nodes) →
      Yields (checkConsistency k l mapping) (fun _ => True) fault)
    (hq : (∀ e ∈ mapping, e.1 ∈ k.partition.nodes ∧ e.2 ∈ l.partition.nodes) →
      Yields (quotient "glue" (joinPairs (k.partition.merge l.partition) mapping)
        (k.maximal ++ l.maximal)) good fault) : Yields (k.glue l mapping) good fault := by
  apply (resolveAll_yields hnf mapping).bind
  rintro resolved ⟨hmem, rfl⟩
  have hclasses := checkClasses_fault hconf [] []
    (mapping.map fun e => (k.partition.root e.1, l.partition.root e.2))
  cases hc : checkClasses [] []
      (mapping.map fun e => (k.partition.root e.1, l.partition.root e.2)) with
  | error f =>
    rw [hc] at hclasses
    exact hclasses
  | ok u =>
    cases u
    exact (hcons hc hmem).bind fun _ _ => hq hmem

theorem pick_yields {c : Complex} {order : Table String Number}
    (hempty : c.latestVertex? order = none → fault .emptyComplex)
    (hgood : ∀ v, c.latestVertex? order = some v →
      good (classPoint (c.withNodes [v]).partition ((c.withNodes [v]).partition.root v))) :
    Yields (c.pick order) good fault := by
  unfold pick pickFrom
  cases h : c.latestVertex? order with
  | none => exact hempty h
  | some v => exact hgood v h

end Yields

end SimplexScript.Complex
