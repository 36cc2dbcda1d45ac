import RecordQuery.Connective
import RecordQuery.SortKey
import RecordQuery.Token

namespace RecordQuery

/-- A literal of a statement. Only an integer can turn out to have no value, so only an
integer keeps its place. -/
inductive Literal
  | boolean (value : Bool)
  | integer (numeral : Numeral) (column : Nat)
  | text (content : String)
deriving DecidableEq

/-- What a condition asks of its attribute. A pattern keeps its place because it may be
refused. -/
inductive ConditionTest
  | relate (relation : Relation) (literal : Literal)
  | like (pattern : String) (column : Nat)
  | isIn (literals : List Literal)
  | contains (text : String)
deriving DecidableEq

/-- A condition on one attribute, whose path is still one name. -/
structure Condition where
  name : String
  test : ConditionTest
deriving DecidableEq

/-- An expression as it is written. Operands with the same connective between them are joined
at once, and a pair of parentheses remains as a group. -/
inductive Node
  | leaf (condition : Condition)
  | group (content : Node)
  | chain (connective : Connective) (operands : List Node)

/-- Joins operands. One operand stands alone. -/
def Node.join (connective : Connective) : List Node → Node
  | [operand] => operand
  | operands => .chain connective operands

/-- A statement: an expression and the clauses after it, each of which may be missing. -/
structure Statement where
  expression? : Option Node
  order? : Option (List SortKey)
  limit? : Option (Numeral × Nat)
  offset? : Option String

def Token.literal? (token : Token) : Option Literal :=
  match token.kind with
  | .boolean value => some (.boolean value)
  | .integer numeral => some (.integer numeral token.column)
  | .text literal => some (.text literal.content)
  | _ => none

end RecordQuery
