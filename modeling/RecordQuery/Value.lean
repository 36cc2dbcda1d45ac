import RecordQuery.Number.Integer
import RecordQuery.Record
import RecordQuery.Text.QuoteMark

namespace RecordQuery

/-- A single literal of query text. Integers have the width of a machine word. -/
inductive Scalar
  | bool (value : Bool)
  | int (value : Int64)
  | text (value : String)
deriving DecidableEq

/-- A literal, or a list of literals such as the right side of a membership test. -/
inductive Value
  | scalar (value : Scalar)
  | list (items : List Value)

/-- A boolean literal, which is written in upper case like a keyword. -/
def booleanText (value : Bool) : String :=
  if value then "TRUE" else "FALSE"

/-- Literals between brackets, with a comma and a blank between neighbours. -/
def bracketed (items : List String) : String :=
  "[" ++ String.intercalate ", " items ++ "]"

namespace Scalar

/-- The literal as query text. -/
def render : Scalar → String
  | .bool value => booleanText value
  | .int value => integerText value.toInt
  | .text value => (QuoteMark.around value).enclose value

/-- The literal as a member of a record. -/
def toRecord : Scalar → Record
  | .bool value => .bool value
  | .int value => .int value.toInt
  | .text value => .text value

end Scalar

namespace Value

mutual

/-- The value as query text. -/
def render : Value → String
  | .scalar value => value.render
  | .list items => bracketed (renderAll items)

/-- The items of a list as query text. -/
def renderAll : List Value → List String
  | [] => []
  | item :: rest => render item :: renderAll rest

end

mutual

/-- The value as a member of a record. -/
def toRecord : Value → Record
  | .scalar value => value.toRecord
  | .list items => .array (toRecords items)

/-- The items of a list as records. -/
def toRecords : List Value → List Record
  | [] => []
  | item :: rest => toRecord item :: toRecords rest

end

end Value

end RecordQuery
