import RecordQuery.Problem
import RecordQuery.Query

namespace RecordQuery

/-- The integer that a numeral denotes, if a machine word can hold it. -/
def Numeral.toWord (numeral : Numeral) (column : Nat) : Except Problem Int64 :=
  if Int64.minValue.toInt ≤ numeral.value ∧ numeral.value ≤ Int64.maxValue.toInt then
    .ok (Int64.ofInt numeral.value)
  else .error ⟨column, .integerRange numeral⟩

def Literal.toScalar : Literal → Except Problem Scalar
  | .boolean value => .ok (.bool value)
  | .integer numeral column => (numeral.toWord column).map .int
  | .text content => .ok (.text content)

/-- The values of literals, or the problem with the first that has none. -/
def Literal.toScalars : List Literal → Except Problem (List Scalar)
  | [] => .ok []
  | literal :: rest => do
    let value ← literal.toScalar
    let values ← toScalars rest
    return value :: values

def ConditionTest.toTest : ConditionTest → Except Problem Test
  | .relate relation literal => literal.toScalar.map (.relate relation)
  | .like pattern column =>
    match Like.Pattern.compile pattern with
    | .ok compiled => .ok (.like compiled)
    | .error fault => .error ⟨column, .pattern pattern fault⟩
  | .isIn literals => (Literal.toScalars literals).map .isIn
  | .contains text => .ok (.contains text)

/-- The parts of a name between its dots. Two dots in a row have an empty part between them. -/
def splitDots : List Char → List (List Char)
  | [] => [[]]
  | c :: rest =>
    if c = '.' then [] :: splitDots rest
    else
      match splitDots rest with
      | [] => [[c]]
      | part :: parts => (c :: part) :: parts

def pathOfName (name : String) : List String :=
  (splitDots name.toList).map String.ofList

def Condition.toComparison (condition : Condition) : Except Problem Comparison :=
  condition.test.toTest.map fun test => ⟨pathOfName condition.name, test⟩

namespace Node

mutual

def weight : Node → Nat
  | .leaf _ => 1
  | .group content => content.weight + 1
  | .chain _ operands => weightOfAll operands + 1

def weightOfAll : List Node → Nat
  | [] => 0
  | operand :: rest => operand.weight + weightOfAll rest

end

theorem weightOfAll_append (left right : List Node) :
    weightOfAll (left ++ right) = weightOfAll left + weightOfAll right := by
  induction left with
  | nil => simp [weightOfAll]
  | cons operand rest ih => simp only [List.cons_append, weightOfAll, ih]; omega

/-- Builds the children of a filter node out of the operands that are still pending. A group
gives way to its content, and operands joined by the node's own connective move up into it. -/
def buildOperands (connective : Connective) : List Node → Except Problem (List Filter)
  | [] => .ok []
  | .leaf condition :: pending => do
    let comparison ← condition.toComparison
    let others ← buildOperands connective pending
    return .leaf comparison :: others
  | .group content :: pending => buildOperands connective (content :: pending)
  | .chain inner operands :: pending =>
    if inner = connective then buildOperands connective (operands ++ pending)
    else do
      let children ← buildOperands inner operands
      let others ← buildOperands connective pending
      return .node inner children :: others
termination_by pending => weightOfAll pending
decreasing_by
  all_goals simp only [weightOfAll, weight, weightOfAll_append]
  all_goals omega

/-- Builds a filter. Parentheses around the whole of it are not kept. -/
def toFilter : Node → Except Problem Filter
  | .leaf condition => condition.toComparison.map .leaf
  | .group content => content.toFilter
  | .chain connective operands => (buildOperands connective operands).map (.node connective)

end Node

/-- Builds a query. Of several literals without a value the first one in the text is reported,
and the limit stands behind the expression. -/
def Query.ofStatement (statement : Statement) : Except Problem Query := do
  let filter ←
    match statement.expression? with
    | some node => node.toFilter
    | none => .ok .matchAll
  let limit? ←
    match statement.limit? with
    | some (numeral, column) => (numeral.toWord column).map some
    | none => .ok none
  return ⟨filter, statement.order?, limit?, statement.offset?⟩

end RecordQuery
