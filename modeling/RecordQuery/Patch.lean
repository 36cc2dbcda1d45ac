import RecordQuery.Query.Parse
import RecordQuery.Record.Assign

namespace RecordQuery

structure Assignment where
  path : List String
  value : Scalar
deriving DecidableEq

namespace Assignment

/-- Carries out an assignment unless a name on its path is reserved. The record comes back as the
assignment leaves it, with the obstacle that ended it. -/
def apply (settings : Settings) (assignment : Assignment) (record : Record) :
    Record × Option Obstacle :=
  match assignment.path.find? settings.isReserved with
  | some segment => (record, some (.reserved segment))
  | none => Record.assign assignment.value.toRecord assignment.path record

/-- The record after an assignment, whether or not an obstacle ended it. -/
def applied (settings : Settings) (record : Record) (assignment : Assignment) : Record :=
  (assignment.apply settings record).1

end Assignment

namespace Filter

mutual

/-- The assignments that a filter spells out: equations joined by conjunctions only. -/
def assignments? : Filter → Option (List Assignment)
  | .leaf ⟨path, .relate .eq value⟩ => some [⟨path, value⟩]
  | .leaf _ => none
  | .node .and children => assignmentsOfAll? children
  | .node .or _ => none

def assignmentsOfAll? : List Filter → Option (List Assignment)
  | [] => some []
  | child :: rest =>
    match assignments? child, assignmentsOfAll? rest with
    | some first, some others => some (first ++ others)
    | _, _ => none

end

end Filter

/-- A list of assignments in the form of a query, with the settings that say what it must not
touch. -/
structure Patch where
  query : Query
  settings : Settings
deriving DecidableEq

namespace Patch

def parse (settings : Settings) (text : String) : Except Error Patch := do
  let query ← Query.parse settings text
  if query.filter.assignments?.isSome then return ⟨query, settings⟩
  else throw (.notAssignments text)

def assignments (patch : Patch) : List Assignment :=
  patch.query.filter.assignments?.getD []

/-- Carries out the assignments one after another. One that meets an obstacle ends there, and the
next one follows. -/
def apply (patch : Patch) (record : Record) : Record :=
  patch.assignments.foldl (Assignment.applied patch.settings) record

end Patch

end RecordQuery
