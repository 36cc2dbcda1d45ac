import Mathlib
import RecordQuery.Proofs.Interference
import RecordQuery.Proofs.Reserved

namespace RecordQuery

namespace Record

variable {record changed : Record} {path owner : List String}

/-- Whether nothing can be made below a record. Below null an object can. -/
def isScalarOrArray : Record → Bool
  | .null | .object _ => false
  | .bool _ | .int _ | .float _ | .text _ | .array _ => true

theorem isScalarOrArray_iff :
    record.isScalarOrArray = true ↔ ¬(record = .null ∨ ∃ members, record = .object members) := by
  cases record <;> simp [isScalarOrArray]

/-- Whether there is an object at a path that has a member of a certain name. -/
def HasMember (record : Record) (owner : List String) (name : String) : Prop :=
  ∃ members value, record.resolve owner = some (.object members) ∧
    lookup name members = some value

/-- Where there is no array, a member is what can be reached by its name. -/
theorem hasMember_iff_exists_resolve {name : String}
    (shape : ∀ found, record.resolve owner = some found →
      found = .null ∨ ∃ members, found = .object members) :
    record.HasMember owner name ↔ ∃ value, record.resolve (owner ++ [name]) = some value := by
  simp only [HasMember, resolve_concat_eq_some_iff shape]
  exact exists_comm

/-- All that an assignment changes: the path gets the value, what is on the way to it becomes an
object, and the rest stays as it was. No member appears or disappears beside the path, and there is
no null but those that were there before. -/
structure ChangedOnlyAt (path : List String) (value record changed : Record) : Prop where
  atPath : changed.resolve path = some value
  beside : ∀ other, Apart path other → changed.resolve other = record.resolve other
  onTheWay : ∀ front, front <+: path → front ≠ path →
    ∃ members, changed.resolve front = some (.object members)
  members : ∀ owner name, Apart path (owner ++ [name]) →
    (changed.HasMember owner name ↔ record.HasMember owner name)
  nulls : ∀ other, changed.resolve other = some .null → record.resolve other = some .null

theorem Assigned.hasMember_iff {value : Record} {name : String}
    (assigned : Assigned value path record changed) (apart : Apart path (owner ++ [name])) :
    changed.HasMember owner name ↔ record.HasMember owner name := by
  have notBehind : ¬path <+: owner := fun front => apart.1 (front.trans (List.prefix_append owner [name]))
  by_cases onPath : owner <+: path
  · -- the owner is an object afterwards, and was one before or is made by the assignment
    have proper : owner ≠ path := fun same => notBehind (same ▸ List.prefix_rfl)
    obtain ⟨members, atOwner⟩ := assigned.resolve_before onPath proper
    have shape (found : Record) (there : changed.resolve owner = some found) :
        found = .null ∨ ∃ members, found = .object members :=
      Or.inr ⟨members, Option.some.inj (there.symm.trans atOwner)⟩
    rw [hasMember_iff_exists_resolve shape, assigned.resolve_apart apart,
      hasMember_iff_exists_resolve (assigned.admits owner onPath proper)]
  · rw [HasMember, HasMember, assigned.resolve_apart ⟨notBehind, onPath⟩]

theorem Assigned.changedOnlyAt {literal : Scalar}
    (assigned : Assigned literal.toRecord path record changed) :
    ChangedOnlyAt path literal.toRecord record changed where
  atPath := assigned.resolve_self
  beside _ apart := assigned.resolve_apart apart
  onTheWay _ front proper := assigned.resolve_before front proper
  members _ _ apart := assigned.hasMember_iff apart
  nulls := by
    intro other null
    by_cases inFront : path <+: other
    · obtain ⟨rest, rfl⟩ := inFront
      rw [assigned.resolve_behind] at null
      by_cases atEnd : rest = []
      · rw [atEnd, resolve_nil] at null
        cases literal <;> cases null
      · rw [literal.resolve_toRecord atEnd] at null
        cases null
    · by_cases onPath : other <+: path
      · have proper : other ≠ path := fun same => inFront (same ▸ List.prefix_rfl)
        obtain ⟨members, atOther⟩ := assigned.resolve_before onPath proper
        rw [atOther] at null
        cases null
      · rwa [assigned.resolve_apart ⟨inFront, onPath⟩] at null

end Record

namespace Assignment

variable {settings : Settings} {record : Record} {path : List String}

/-- What stops an assignment: a reserved name on its path, or a scalar or an array that it would have
to write below. The record itself may be the one that stops it. -/
def Stopped (settings : Settings) (record : Record) (path : List String) : Prop :=
  (∃ name ∈ path, settings.isReserved name = true) ∨
    ∃ front found, front <+: path ∧ front ≠ path ∧ record.resolve front = some found ∧
      found.isScalarOrArray = true

theorem not_stopped_iff : ¬Stopped settings record path ↔ Free settings path ∧ record.Admits path := by
  rw [Stopped, not_or]
  refine and_congr ?_ ?_
  · simp only [Free, not_exists, not_and, Bool.not_eq_true]
  · constructor
    · intro passes front inFront proper found atFront
      by_contra shape
      exact passes ⟨front, found, inFront, proper, atFront, Record.isScalarOrArray_iff.mpr shape⟩
    · rintro admits ⟨front, found, inFront, proper, atFront, closed⟩
      exact Record.isScalarOrArray_iff.mp closed (admits front inFront proper found atFront)

/-- What stops an assignment is seen in the record before it. Nothing that the walk makes on its way
can stop it later on. -/
theorem exists_obstacle_iff {assignment : Assignment} (nonempty : assignment.path ≠ []) :
    (∃ obstacle, (assignment.apply settings record).2 = some obstacle) ↔
      Stopped settings record assignment.path := by
  have carried : ¬Stopped settings record assignment.path ↔
      (assignment.apply settings record).2 = none :=
    not_stopped_iff.trans (obstacle_eq_none_iff nonempty).symm
  rw [← not_iff_not, carried, Option.eq_none_iff_forall_ne_some, not_exists]

end Assignment

namespace Patch

/-- A single assignment is carried out as a whole or not at all. The walk meets an obstacle exactly if
something stood in its way from the start, and then it has left the record as it was. If nothing stops
it, it changes its path and what is on the way to it, and nothing else. -/
theorem single_assignment_all_or_nothing (patch : Patch) (assignment : Assignment) (record : Record)
    (single : patch.assignments = [assignment]) (nonempty : assignment.path ≠ []) :
    ((∃ obstacle, (assignment.apply patch.settings record).2 = some obstacle) ↔
      Assignment.Stopped patch.settings record assignment.path) ∧
      (Assignment.Stopped patch.settings record assignment.path → patch.apply record = record) ∧
      (¬Assignment.Stopped patch.settings record assignment.path →
        Record.ChangedOnlyAt assignment.path assignment.value.toRecord record
          (patch.apply record)) := by
  have run : patch.apply record = assignment.applied patch.settings record := by
    rw [apply, single, List.foldl_cons, List.foldl_nil]
  rw [run]
  have obstacles : (∃ obstacle, (assignment.apply patch.settings record).2 = some obstacle) ↔
      Assignment.Stopped patch.settings record assignment.path :=
    Assignment.exists_obstacle_iff nonempty
  refine ⟨obstacles, fun stopped => ?_, fun passes => ?_⟩
  · obtain ⟨obstacle, met⟩ := obstacles.mpr stopped
    exact Assignment.applied_of_obstacle met
  · obtain ⟨free, admits⟩ := Assignment.not_stopped_iff.mp passes
    exact (Assignment.assigned_applied nonempty free admits).changedOnlyAt

/-- A number in the second place leaves no trace of the object that the first place would need. With
null in the first place both objects are made, and null elsewhere stays. -/
theorem single_assignment_all_or_nothing_nested :
    let stopping : Record := .object [("a", .object [("b", .int 5)]), ("d", .null)]
    let passing : Record := .object [("a", .null), ("d", .null)]
    ∃ patch, parse .builtIn "a.b.c = 7" = .ok patch ∧ patch.apply stopping = stopping ∧
      (∃ obstacle, (Assignment.apply .builtIn ⟨["a", "b", "c"], .int 7⟩ stopping).2 = some obstacle) ∧
      Record.ChangedOnlyAt ["a", "b", "c"] (.int 7) passing (patch.apply passing) := by
  intro stopping passing
  let patch : Patch := ⟨⟨.leaf ⟨["a", "b", "c"], .relate .eq (.int 7)⟩, none, none, none⟩, .builtIn⟩
  have run : parse .builtIn "a.b.c = 7" = .ok patch := by cbv
  have nonempty : ["a", "b", "c"] ≠ [] := List.cons_ne_nil _ _
  have law (record : Record) :=
    single_assignment_all_or_nothing patch ⟨["a", "b", "c"], .int 7⟩ record rfl nonempty
  have stopped : Assignment.Stopped .builtIn stopping ["a", "b", "c"] := by
    refine Or.inr ⟨["a", "b"], .int 5, ⟨["c"], rfl⟩, by decide, rfl, rfl⟩
  have passes : ¬Assignment.Stopped .builtIn passing ["a", "b", "c"] := by
    refine Assignment.not_stopped_iff.mpr ⟨by unfold Assignment.Free; decide, ?_⟩
    let made : Record := .object [("a", .object [("b", .object [("c", .int 7)])]), ("d", .null)]
    have assigned : Record.Assigned (.int 7) ["a", "b", "c"] passing made :=
      (Record.assign_eq_iff nonempty).mp rfl
    exact assigned.admits
  exact ⟨patch, run, (law stopping).2.1 stopped, (law stopping).1.mpr stopped,
    (law passing).2.2 passes⟩

end Patch

end RecordQuery
