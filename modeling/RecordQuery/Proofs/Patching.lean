import Mathlib
import RecordQuery.Proofs.Accepted
import RecordQuery.Proofs.Writing

namespace RecordQuery

/-! ### A list of assignments -/

namespace Assignment

variable {settings : Settings} {record : Record} {assignments : List Assignment}

theorem resolve_appliedAll_apart {path : List String}
    (apart : ∀ assignment ∈ assignments, Apart assignment.path path) :
    (assignments.foldl (applied settings) record).resolve path = record.resolve path := by
  induction assignments generalizing record with
  | nil => rfl
  | cons first rest ih =>
    have later := fun assignment member => apart assignment (List.mem_cons_of_mem first member)
    rw [List.foldl_cons, ih later, resolve_applied_apart (apart first List.mem_cons_self)]

/-- Assignments whose paths part from each other are all carried out if each of them could be by
itself, and none of them disturbs another one. -/
theorem resolve_appliedAll (nonempty : ∀ assignment ∈ assignments, assignment.path ≠ [])
    (free : ∀ assignment ∈ assignments, Free settings assignment.path)
    (apart : assignments.Pairwise fun first later => Apart first.path later.path)
    (admits : ∀ assignment ∈ assignments, record.Admits assignment.path) :
    ∀ assignment ∈ assignments,
      (assignments.foldl (applied settings) record).resolve assignment.path =
        some assignment.value.toRecord := by
  induction assignments generalizing record with
  | nil => exact fun assignment => List.not_mem_nil.elim
  | cons first rest ih =>
    obtain ⟨nonemptyFirst, nonemptyRest⟩ := List.forall_mem_cons.mp nonempty
    obtain ⟨freeFirst, freeRest⟩ := List.forall_mem_cons.mp free
    obtain ⟨admitsFirst, admitsRest⟩ := List.forall_mem_cons.mp admits
    obtain ⟨apartFirst, apartRest⟩ := List.pairwise_cons.mp apart
    have assigned := assigned_applied nonemptyFirst freeFirst admitsFirst
    rw [List.foldl_cons]
    refine List.forall_mem_cons.mpr ⟨?_, ?_⟩
    · have undisturbed : ∀ later ∈ rest, Apart later.path first.path :=
        fun later member => (apartFirst later member).symm
      rw [resolve_appliedAll_apart undisturbed, assigned.resolve_self]
    · refine ih nonemptyRest freeRest apartRest fun later member => ?_
      exact (admitsRest later member).of_assigned assigned (apartFirst later member)

end Assignment

/-! ### The filter of a patch -/

/-- An assignment as a condition. -/
def Assignment.equation (assignment : Assignment) : Comparison :=
  ⟨assignment.path, .relate .eq assignment.value⟩

theorem Scalar.looseEq_toRecord (literal : Scalar) : looseEq literal.toRecord literal = true := by
  cases literal with
  | bool value => exact beq_self_eq_true value
  | int value =>
    have within : Int64.minValue.toInt ≤ value.toInt ∧ value.toInt ≤ Int64.maxValue.toInt :=
      ⟨value.minValue_le_toInt, value.toInt_le⟩
    have word : (toRecord (.int value)).signed? = some value := by
      rw [toRecord, Record.signed?, if_pos within, Int64.ofInt_toInt]
    have equal : (toRecord (.int value)).compareNumber? value = some .eq := by
      simp only [Record.compareNumber?, word, Std.ReflOrd.compare_self]
    exact beq_iff_eq.mpr equal
  | text value => exact beq_self_eq_true value

/-- A condition holds once its value has been assigned. -/
theorem Assignment.matched_equation {assignment : Assignment} {record : Record}
    (found : record.resolve assignment.path = some assignment.value.toRecord) (mode : Mode) :
    (assignment.equation.evaluate mode record).matched = true := by
  have holds := Scalar.looseEq_toRecord assignment.value
  simp only [Comparison.evaluate, equation, found, Test.holds, Relation.holds, holds]

namespace Filter

variable {filter : Filter} {children : List Filter} {assignments : List Assignment}

theorem assignments?_leaf_eq_some_iff {comparison : Comparison} :
    (leaf comparison).assignments? = some assignments ↔
      ∃ assignment : Assignment, comparison = assignment.equation ∧ assignments = [assignment] := by
  constructor
  · intro spelt
    obtain ⟨path, test⟩ := comparison
    cases test with
    | relate relation value =>
      cases relation with
      | eq =>
        cases spelt
        exact ⟨⟨path, value⟩, rfl, rfl⟩
      | _ => cases spelt
    | _ => cases spelt
  · rintro ⟨assignment, rfl, rfl⟩
    rfl

theorem assignmentsOfAll?_cons_eq_some_iff {child : Filter} :
    assignmentsOfAll? (child :: children) = some assignments ↔
      ∃ first others, child.assignments? = some first ∧ assignmentsOfAll? children = some others ∧
        assignments = first ++ others := by
  rw [assignmentsOfAll?]
  cases child.assignments? <;> cases assignmentsOfAll? children <;> simp [eq_comm]

/-- The comparisons of a filter that spells assignments are these assignments in their order. -/
theorem comparisons_of_assignments? (spelt : filter.assignments? = some assignments) :
    filter.comparisons = assignments.map Assignment.equation := by
  induction filter using tree_induction generalizing assignments with
  | leaf comparison =>
    obtain ⟨assignment, rfl, rfl⟩ := assignments?_leaf_eq_some_iff.mp spelt
    rfl
  | node connective children each =>
    cases connective with
    | or => cases spelt
    | and =>
      rw [assignments?] at spelt
      rw [comparisons, comparisonsOfAll_eq_flatMap]
      induction children generalizing assignments with
      | nil =>
        cases spelt
        rfl
      | cons child rest ih =>
        obtain ⟨first, others, atChild, atRest, rfl⟩ := assignmentsOfAll?_cons_eq_some_iff.mp spelt
        have front := each child List.mem_cons_self atChild
        have back := ih (fun next member => each next (List.mem_cons_of_mem child member)) atRest
        rw [List.flatMap_cons, front, back, List.map_append]

/-- A filter that spells assignments matches where all of them hold. -/
theorem matched_of_assignments? {mode : Mode} {record : Record}
    (spelt : filter.assignments? = some assignments)
    (holds : ∀ assignment ∈ assignments, (assignment.equation.evaluate mode record).matched = true) :
    (filter.evaluate mode record).matched = true := by
  induction filter using tree_induction generalizing assignments with
  | leaf comparison =>
    obtain ⟨assignment, rfl, rfl⟩ := assignments?_leaf_eq_some_iff.mp spelt
    exact holds assignment List.mem_cons_self
  | node connective children each =>
    cases connective with
    | or => cases spelt
    | and =>
      rw [assignments?] at spelt
      rw [evaluate_node]
      induction children generalizing assignments with
      | nil => rfl
      | cons child rest ih =>
        obtain ⟨first, others, atChild, atRest, rfl⟩ := assignmentsOfAll?_cons_eq_some_iff.mp spelt
        obtain ⟨holdsFirst, holdsOthers⟩ := List.forall_mem_append.mp holds
        have front := each child List.mem_cons_self atChild holdsFirst
        have back := ih (fun next member => each next (List.mem_cons_of_mem child member))
          holdsOthers atRest
        rw [evaluateAll_cons, Verdict.followedBy_and, front, back]
        rfl

end Filter

/-! ### Accepted patches -/

namespace Patch

variable {settings : Settings} {text : String} {patch : Patch}

/-- An accepted patch is the query of its text, whose filter spells the assignments. -/
theorem parse_eq_ok_iff :
    parse settings text = .ok patch ↔
      Query.parse settings text = .ok patch.query ∧ patch.settings = settings ∧
        patch.query.filter.assignments? = some patch.assignments := by
  constructor
  · intro run
    obtain ⟨query, atText, run⟩ := exists_of_bind_eq_ok run
    cases spelt : query.filter.assignments? with
    | none =>
      rw [spelt] at run
      cases run
    | some assignments =>
      rw [spelt] at run
      cases run
      refine ⟨atText, rfl, ?_⟩
      rw [spelt, Patch.assignments, spelt, Option.getD_some]
  · rintro ⟨atText, rfl, spelt⟩
    rw [parse, atText]
    simp only [bind, Except.bind, spelt, Option.isSome_some, if_true]
    rfl

theorem path_ne_nil_of_parse (run : parse settings text = .ok patch) :
    ∀ assignment ∈ patch.assignments, assignment.path ≠ [] := by
  obtain ⟨atText, _, spelt⟩ := parse_eq_ok_iff.mp run
  obtain ⟨writable, _⟩ := Query.built_of_read (Query.parse_eq_ok_iff.mp atText)
  intro assignment member
  have listed : assignment.equation ∈ patch.query.filter.comparisons := by
    rw [Filter.comparisons_of_assignments? spelt]
    exact List.mem_map_of_mem member
  obtain ⟨⟨name, _, path⟩, _⟩ := writable.filter assignment.equation listed
  intro empty
  have none : pathOfName name = [] := path.symm.trans empty
  exact splitDots_ne_nil name.toList (List.map_eq_nil_iff.mp none)

/-- What a patch assigns is found afterwards, at its path and by the query with the same text. The
paths must part from each other, no name on them may be reserved, and nothing may stop them. -/
theorem apply_then_accepts (settings : Settings) (text : String) (patch : Patch) (record : Record)
    (run : parse settings text = .ok patch)
    (free : ∀ assignment ∈ patch.assignments, ∀ name ∈ assignment.path,
      settings.isReserved name = false)
    (apart : patch.assignments.Pairwise fun first later => Apart first.path later.path)
    (admits : ∀ assignment ∈ patch.assignments, record.Admits assignment.path) :
    (∀ assignment ∈ patch.assignments,
      (patch.apply record).resolve assignment.path = some assignment.value.toRecord) ∧
      ∃ query, Query.parse settings text = .ok query ∧
        query.filter.comparisons = patch.assignments.map Assignment.equation ∧
          query.accepts (patch.apply record) = true := by
  obtain ⟨atText, rfl, spelt⟩ := parse_eq_ok_iff.mp run
  have found := Assignment.resolve_appliedAll (path_ne_nil_of_parse run) free apart admits
  refine ⟨found, patch.query, atText, Filter.comparisons_of_assignments? spelt, ?_⟩
  refine Filter.matched_of_assignments? spelt fun assignment member => ?_
  exact Assignment.matched_equation (found assignment member) .strict

/-- Two paths share an object that is yet to be made in the place of null. -/
theorem apply_then_accepts_shared :
    let text := "a.b = 1 AND (a..c = 'x' AND d = TRUE)"
    let record : Record := .object [("a", .null), ("d", .int 0)]
    ∃ patch, parse .builtIn text = .ok patch ∧
      (patch.apply record).resolve ["a", "b"] = some (.int 1) ∧
      (patch.apply record).resolve ["a", "", "c"] = some (.text "x") ∧
      ∃ query, Query.parse .builtIn text = .ok query ∧
        query.accepts (patch.apply record) = true := by
  intro text record
  let first : Assignment := ⟨["a", "b"], .int 1⟩
  let second : Assignment := ⟨["a", "", "c"], .text "x"⟩
  let third : Assignment := ⟨["d"], .bool true⟩
  let filter : Filter :=
    .node .and [.leaf first.equation, .leaf second.equation, .leaf third.equation]
  let patch : Patch := ⟨⟨filter, none, none, none⟩, .builtIn⟩
  have run : parse .builtIn text = .ok patch := by unfold text; cbv
  have listed : patch.assignments = [first, second, third] := rfl
  have free : ∀ assignment ∈ patch.assignments, ∀ name ∈ assignment.path,
      Settings.builtIn.isReserved name = false := by rw [listed]; decide
  have apart : patch.assignments.Pairwise fun first later => Apart first.path later.path := by
    rw [listed]
    simp [Apart, first, second, third]
  have admits : ∀ assignment ∈ patch.assignments, record.Admits assignment.path := by
    have carried (path : List String) (nonempty : path ≠ []) {changed : Record}
        (assigned : Record.assign .null path record = (changed, none)) : record.Admits path :=
      ((Record.assign_eq_iff nonempty).mp assigned).admits
    rw [listed]
    refine List.forall_mem_cons.mpr ⟨carried _ (List.cons_ne_nil _ _) rfl, ?_⟩
    refine List.forall_mem_cons.mpr ⟨carried _ (List.cons_ne_nil _ _) rfl, ?_⟩
    exact List.forall_mem_singleton.mpr (carried _ (List.cons_ne_nil _ _) rfl)
  obtain ⟨found, query, atText, _, accepts⟩ :=
    apply_then_accepts .builtIn text patch record run free apart admits
  refine ⟨patch, run, found first ?_, found second ?_, query, atText, accepts⟩
  · rw [listed]
    exact List.mem_cons_self
  · rw [listed]
    exact List.mem_cons_of_mem first List.mem_cons_self

end Patch

end RecordQuery
