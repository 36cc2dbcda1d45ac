import RecordQuery.Number.Integer
import RecordQuery.Number.Shortest
import RecordQuery.Record

namespace RecordQuery.Record

def commaJoined : List String → String :=
  String.intercalate ","

mutual

/-- The text that a pattern is matched with. Null and objects have none, and inside an array
such an item leaves an empty place. -/
def text? : Record → Option String
  | .null => none
  | .bool value => some (if value then "true" else "false")
  | .int value => some (integerText value)
  | .float value => some value.text
  | .text value => some value
  | .array items => some (commaJoined (itemTexts items))
  | .object _ => none

def itemTexts : List Record → List String
  | [] => []
  | item :: rest => (text? item).getD "" :: itemTexts rest

end

end RecordQuery.Record
