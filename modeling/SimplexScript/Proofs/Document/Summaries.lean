import SimplexScript.Document.Check
import SimplexScript.Proofs.Document.Parts
import SimplexScript.Proofs.Homology.Faces
import SimplexScript.Proofs.Partition.Requests
import SimplexScript.Proofs.Record

/-!
# What summaries keep

The classes of a summary are the classes of the partition in the order of a
record, and without the reserved key a record has room for all of them. They
say of every name whether it is a node and what represents it. A summary is a
valid document, and since its classes are listed in order already, checking it
gives it back unchanged.
-/

set_option autoImplicit false

namespace SimplexScript

namespace Complex

variable {c : Complex}

theorem keys_blocks (p : Partition String) :
    Table.keys p.blocks = distinct (p.nodes.map p.root) := by
  rw [Partition.blocks_eq, Table.keys, List.map_map]
  exact List.map_id _

/-- The complex has a well-formed partition in which no name is the reserved key. -/
structure Recordable (c : Complex) : Prop where
  forest : c.partition.Forest
  unreserved : Record.reservedKey ∉ c.partition.nodes

namespace Recordable

theorem not_mem_keys (hc : c.Recordable) : Record.reservedKey ∉ Table.keys c.partition.blocks := by
  rw [keys_blocks, mem_distinct]
  intro hkey
  obtain ⟨x, hx, hroot⟩ := List.mem_map.1 hkey
  exact hc.unreserved (hroot ▸ Partition.root_mem hc.forest hx)

theorem perm_classes (hc : c.Recordable) :
    (Summary.ofComplex c).classes.entries.Perm c.partition.blocks := by
  have hperm := Record.perm_listing c.partition.blocks
  rwa [Record.filter_reserved hc.not_mem_keys] at hperm

theorem not_mem_classes (hc : c.Recordable) :
    Record.reservedKey ∉ Table.keys (Summary.ofComplex c).classes.entries :=
  mt (hc.perm_classes.map Prod.fst).mem_iff.1 hc.not_mem_keys

theorem perm_keys (hc : c.Recordable) : (Table.keys (Summary.ofComplex c).classes.entries).Perm
    (distinct (c.partition.nodes.map c.partition.root)) := by
  rw [← keys_blocks]
  exact hc.perm_classes.map Prod.fst

theorem nodup_keys (hc : c.Recordable) :
    (Table.keys (Summary.ofComplex c).classes.entries).Nodup :=
  hc.perm_keys.nodup_iff.2 (nodup_distinct _)

theorem plain_classes (hc : c.Recordable) : (Summary.ofComplex c).classes.plain = true := by
  have hkey : Table.contains c.partition.blocks Record.reservedKey = false :=
    Bool.eq_false_iff.2 (mt (Table.contains_iff _ _).1 hc.not_mem_keys)
  simp only [Summary.ofComplex, Record.ofTable, hkey, Bool.not_false, Bool.true_or]

theorem get?_classes (hc : c.Recordable) {rep : String} {ms : List String} :
    Table.get? (Summary.ofComplex c).classes.entries rep = some ms ↔
      (∃ x ∈ c.partition.nodes, c.partition.root x = rep) ∧
        ms = c.partition.nodes.filter fun y => decide (c.partition.root y = rep) := by
  rw [Table.get?_eq_some_iff hc.nodup_keys, hc.perm_classes.mem_iff, Partition.blocks_eq,
    List.mem_map]
  constructor
  · rintro ⟨r, hr, he⟩
    cases he
    exact ⟨List.mem_map.1 ((mem_distinct _ _).1 hr), rfl⟩
  · rintro ⟨hrep, rfl⟩
    exact ⟨rep, (mem_distinct _ _).2 (List.mem_map.2 hrep), rfl⟩

theorem listed_iff (hc : c.Recordable) {rep m : String} :
    (∃ ms, Table.get? (Summary.ofComplex c).classes.entries rep = some ms ∧ m ∈ ms) ↔
      m ∈ c.partition.nodes ∧ c.partition.root m = rep := by
  constructor
  · rintro ⟨ms, hms, hm⟩
    obtain ⟨-, rfl⟩ := hc.get?_classes.1 hms
    simpa using hm
  · rintro ⟨hm, hroot⟩
    exact ⟨_, hc.get?_classes.2 ⟨⟨m, hm, hroot⟩, rfl⟩, by simpa using ⟨hm, hroot⟩⟩

theorem perm_members (hc : c.Recordable) :
    ((Summary.ofComplex c).classes.entries.flatMap Prod.snd).Perm c.partition.nodes := by
  apply (hc.perm_classes.flatMap_right Prod.snd).trans
  rw [Partition.blocks_eq, List.flatMap_map]
  apply perm_flatMap_filter c.partition.root (nodup_distinct _)
  exact fun x hx => (mem_distinct _ _).2 (List.mem_map_of_mem hx)

end Recordable

end Complex

/-- Equal summaries, where classes are compared as maps from representatives to members. -/
structure Summary.Same (s t : Summary) : Prop where
  dimension : s.dimension = t.dimension
  simplices : s.simplices = t.simplices
  vertices : s.vertices = t.vertices
  classes : ∀ rep, Table.get? s.classes.entries rep = Table.get? t.classes.entries rep

namespace Document

open Verdict

section Checks

variable {α : Type} {check : Option Json → Verdict α} {write : α → Json} {t : Table String α}

theorem checkEntries_map (h : ∀ e ∈ t, check (some (write e.2)) = .accepted e.2) :
    checkEntries check (t.map fun e => (e.1, write e.2)) = .accepted t := by
  induction t with
  | nil => rfl
  | cons e t ih =>
    have hrest := ih fun d hd => h d (by simp [hd])
    simp only [List.map_cons, checkEntries, h e (by simp), hrest]
    rfl

theorem checkRecord_map (horder : (Table.keys t).Pairwise Record.Before)
    (hkey : Record.reservedKey ∉ Table.keys t)
    (h : ∀ e ∈ t, check (some (write e.2)) = .accepted e.2) :
    checkRecord check (some (.object (t.map fun e => (e.1, write e.2)))) = .accepted ⟨t, true⟩ := by
  have hkeys : Table.keys (t.map fun e => (e.1, write e.2)) = Table.keys t := by
    simp [Table.keys, Function.comp_def]
  rw [checkRecord, Record.listing_eq_self (hkeys ▸ horder) (hkeys ▸ hkey), checkEntries_map h]
  rfl

end Checks

theorem checkList_texts (names : List String) :
    checkList checkText (some (Json.texts names)) = .accepted names :=
  checkList_map fun _ _ => rfl

theorem dimension_bounds_iff {z : Int} (h : -1 ≤ z) :
    integerBounds z ++ dimensionBounds z = [] ↔ z ≤ (Number.maxSafe : Int) := by
  have hmax : Number.maxSafe = 2 ^ 53 - 1 := rfl
  have hlow : ¬ z < -1 := by omega
  have hsmall : ¬ z < -(Number.maxSafe : Int) := by omega
  by_cases hz : (Number.maxSafe : Int) < z
  · exact iff_of_false (by simp [integerBounds, hz]) (by omega)
  · exact iff_of_true (by simp [integerBounds, dimensionBounds, hz, hsmall, hlow]) (by omega)

/-- Of a summary whose classes are a plain record in order, only the dimension can be refused. -/
theorem checkSummary_toJson {s : Summary} {z : Int} (hdimension : s.dimension = .ofInt z)
    (hplain : s.classes.plain = true)
    (horder : (Table.keys s.classes.entries).Pairwise Record.Before)
    (hkey : Record.reservedKey ∉ Table.keys s.classes.entries) :
    checkSummary (some s.toJson) =
      ((bounded s.dimension (integerBounds z ++ dimensionBounds z)).under "dimension").map
        fun d => { s with dimension := d } := by
  obtain ⟨dimension, simplices, vertices, entries, plain⟩ := s
  obtain rfl : dimension = .ofInt z := hdimension
  obtain rfl : plain = true := hplain
  have hinteger : checkInteger dimensionBounds (some (.number (.ofInt z))) = _ :=
    checkInteger_ofInt dimensionBounds z
  have hsimplices : checkList (checkList checkText) (some (.array (simplices.map Json.texts))) =
      .accepted simplices :=
    checkList_map fun s _ => checkList_texts s
  have hclasses := checkRecord_map horder hkey fun e _ => checkList_texts e.2
  simp only [Summary.toJson, checkSummary, Table.get?, String.reduceEq, if_true, if_false,
    hinteger, hsimplices, checkList_texts, hclasses]
  cases bounded (Number.ofInt z) (integerBounds z ++ dimensionBounds z) with
  | accepted d => rfl
  | rejected issues => rfl

theorem recheck_ofComplex {c : Complex} (hc : c.Recordable) :
    recheck (Summary.ofComplex c) = .accepted (Summary.ofComplex c) ↔
      c.dimension ≤ (Number.maxSafe : Int) := by
  rw [recheck, if_pos hc.plain_classes, checkSummary_toJson rfl hc.plain_classes
    (Record.pairwise_listing _) hc.not_mem_classes, ← dimension_bounds_iff c.neg_one_le_dimension]
  cases integerBounds c.dimension ++ dimensionBounds c.dimension with
  | nil => exact iff_of_true rfl rfl
  | cons message messages => exact iff_of_false (by rintro ⟨⟩) (by simp)

end Document

namespace Complex

theorem Recordable.same_classes {c d : Complex} (hc : c.Recordable) (hd : d.Recordable)
    (h : (Summary.ofComplex c).Same (Summary.ofComplex d)) :
    (∀ x, x ∈ d.partition.nodes ↔ x ∈ c.partition.nodes) ∧
      ∀ x, d.partition.root x = c.partition.root x := by
  have hlisted : ∀ x rep, x ∈ d.partition.nodes ∧ d.partition.root x = rep ↔
      x ∈ c.partition.nodes ∧ c.partition.root x = rep := by
    intro x rep
    rw [← hc.listed_iff, ← hd.listed_iff, h.classes]
  have hnodes : ∀ x, x ∈ d.partition.nodes ↔ x ∈ c.partition.nodes := by
    intro x
    constructor
    · exact fun hx => ((hlisted x _).1 ⟨hx, rfl⟩).1
    · exact fun hx => ((hlisted x _).2 ⟨hx, rfl⟩).1
  refine ⟨hnodes, ?_⟩
  intro x
  by_cases hx : x ∈ c.partition.nodes
  · exact ((hlisted x _).2 ⟨hx, rfl⟩).2
  · rw [Partition.root_of_not_mem hc.forest hx,
      Partition.root_of_not_mem hd.forest (mt (hnodes x).1 hx)]

/-- A summary loses nothing of a complex. Its classes stand under the representatives, a name is
listed under what a search for it gives, and every node is listed once. Complexes with the same
summary have the same maximal simplices, the same nodes and the same representatives. A summary is
accepted as a document and given back unchanged, as long as the dimension is a safe integer. -/
theorem summary_lossless {c : Complex} (hc : c.Recordable) :
    let s := Summary.ofComplex c
    ((Table.keys s.classes.entries).Nodup ∧ ∀ rep, rep ∈ Table.keys s.classes.entries ↔
      ∃ x ∈ c.partition.nodes, (c.partition.find x).1 = rep) ∧
    (∀ rep m, (∃ ms, Table.get? s.classes.entries rep = some ms ∧ m ∈ ms) ↔
      m ∈ c.partition.nodes ∧ (c.partition.find m).1 = rep) ∧
    (∀ x ∈ c.partition.nodes, (s.classes.entries.flatMap Prod.snd).count x = 1) ∧
    (∀ d : Complex, d.Recordable → s.Same (Summary.ofComplex d) →
      d.maximal = c.maximal ∧ (∀ x, x ∈ d.partition.nodes ↔ x ∈ c.partition.nodes) ∧
        ∀ x, (d.partition.find x).1 = (c.partition.find x).1) ∧
    (Document.recheck s = .accepted s ↔ c.dimension ≤ (Number.maxSafe : Int)) := by
  intro s
  have hfind : ∀ x, (c.partition.find x).1 = c.partition.root x :=
    Partition.find_fst hc.forest
  simp only [hfind]
  refine ⟨⟨hc.nodup_keys, ?_⟩, fun rep m => hc.listed_iff, ?_, ?_, Document.recheck_ofComplex hc⟩
  · intro rep
    rw [hc.perm_keys.mem_iff, mem_distinct, List.mem_map]
  · intro x hx
    rw [hc.perm_members.count_eq]
    exact List.count_eq_one_of_mem hc.forest.nodup hx
  · intro d hd hsame
    obtain ⟨hnodes, hroot⟩ := hc.same_classes hd hsame
    refine ⟨hsame.simplices.symm, hnodes, ?_⟩
    intro x
    rw [Partition.find_fst hd.forest, hroot]

/-- Names that are array indices, the empty name and the hiding key, in two complexes that know
their names in different orders. -/
theorem summary_lossless_indices :
    let c := ofSimplices [["10", "2"], ["constructor", ""]]
      ((Partition.empty.addAll ["10", "constructor", ""]).union "2" "x").2
    let d := ofSimplices [["10", "2"], ["constructor", ""]]
      (((Partition.empty.union "2" "x").2.addAll ["", "constructor"]).find "10").2
    let s := Summary.ofComplex c
    c.Recordable ∧ d.Recordable ∧ s.Same (Summary.ofComplex d) ∧
      Table.keys s.classes.entries = ["2", "10", "constructor", ""] ∧
      (∃ ms, Table.get? s.classes.entries "2" = some ms ∧ "x" ∈ ms) ∧
      (s.classes.entries.flatMap Prod.snd).count "x" = 1 ∧
      (d.partition.find "x").1 = (c.partition.find "x").1 ∧
      Document.recheck s = .accepted s := by
  intro c d s
  have hc : c.Recordable := ⟨⟨by decide, by decide, by decide⟩, by decide⟩
  have hd : d.Recordable := ⟨⟨by decide, by decide, by decide⟩, by decide⟩
  have hentries : s.classes.entries =
      [("2", ["2", "x"]), ("10", ["10"]), ("constructor", ["constructor"]), ("", [""])] := by decide
  have hentries' : (Summary.ofComplex d).classes.entries =
      [("2", ["2", "x"]), ("10", ["10"]), ("", [""]), ("constructor", ["constructor"])] := by decide
  have hsame : s.Same (Summary.ofComplex d) := by
    refine ⟨rfl, rfl, rfl, ?_⟩
    intro rep
    rw [hentries, hentries']
    simp only [Table.get?]
    grind
  obtain ⟨-, hlisted, honce, hlossless, haccepted⟩ := summary_lossless hc
  exact ⟨hc, hd, hsame, by decide, (hlisted "2" "x").2 (by decide), honce "x" (by decide),
    (hlossless d hd hsame).2.2 "x", haccepted.2 (by decide)⟩

end Complex

end SimplexScript
