import RecordQuery.Patch
import RecordQuery.Query.Merge
import RecordQuery.Text.Quoted

namespace RecordQuery

/-- What an operation notes for whoever follows it. -/
inductive Event
  | compiling (pattern : String)
  | parsed (text canonical : String)
  | merging (other query : String) (connective : Connective)
  | skipped (assignment : Assignment) (obstacle : Obstacle)
deriving DecidableEq

def Obstacle.message : Obstacle → String
  | .reserved segment => "reserved segment " ++ Text.quoted segment
  | .noParentOf segment => "parent of " ++ segment ++ " is not an object"
  | .noParent => "parent is not an object"

/-- An event as a line of a log, which begins with its level. -/
def Event.line : Event → String
  | .compiling pattern =>
    "TRACE: LIKE " ++ Text.quoted pattern ++ " compiled to " ++ Like.Pattern.slashed pattern
  | .parsed text canonical =>
    "DEBUG: parsed query " ++ Text.quoted text ++ " as " ++ Text.quoted canonical
  | .merging other query connective =>
    "DEBUG: merging " ++ Text.quoted other ++ " into " ++ Text.quoted query ++ " with "
      ++ connective.spelling
  | .skipped assignment obstacle =>
    "DEBUG: skipping assignment to " ++ dotted assignment.path ++ ": " ++ obstacle.message

namespace Node

mutual

/-- The conditions of an expression from left to right. -/
def conditions : Node → List Condition
  | .leaf condition => [condition]
  | .group content => content.conditions
  | .chain _ operands => conditionsOfAll operands

def conditionsOfAll : List Node → List Condition
  | [] => []
  | operand :: rest => operand.conditions ++ conditionsOfAll rest

end

end Node

/-- The patterns that are noted while conditions are turned into comparisons. A pattern is noted
before it is known to be accepted, and the first problem ends it. -/
def Condition.events : List Condition → List Event
  | [] => []
  | condition :: rest =>
    let own :=
      match condition.test with
      | .like pattern _ => [Event.compiling pattern]
      | _ => []
    match condition.toComparison with
    | .ok _ => own ++ events rest
    | .error _ => own

namespace Query

def parseEvents (settings : Settings) (text : String) : List Event :=
  match Statement.read settings.maxDepth text with
  | .error _ => []
  | .ok statement =>
    let patterns :=
      match statement.expression? with
      | some node => Condition.events node.conditions
      | none => []
    match Query.ofStatement statement with
    | .ok query => patterns ++ [.parsed text query.render]
    | .error _ => patterns

def mergeEvent (query other : Query) (connective : Connective) : Event :=
  .merging other.render query.render connective

def prependEvents (settings : Settings) (text condition : String) : List Event :=
  let reading := parseEvents settings text
  match parse settings text with
  | .error _ => reading
  | .ok query =>
    match parse settings condition with
    | .error _ => reading ++ parseEvents settings condition
    | .ok required =>
      reading ++ parseEvents settings condition ++ [query.mergeEvent required .and]

end Query

/-- The assignments that are passed over in a list, each with its obstacle. -/
def Assignment.events (settings : Settings) (record : Record) : List Assignment → List Event
  | [] => []
  | assignment :: rest =>
    let (left, obstacle?) := assignment.apply settings record
    let later := events settings left rest
    match obstacle? with
    | none => later
    | some obstacle => .skipped assignment obstacle :: later

def Patch.events (patch : Patch) (record : Record) : List Event :=
  Assignment.events patch.settings record patch.assignments

end RecordQuery
