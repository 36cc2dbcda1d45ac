import RecordQuery.Number.Decimal
import RecordQuery.Text.Blank
import RecordQuery.Value

namespace RecordQuery

namespace Record

/-- A number as a signed word, if it is a whole number that fits. -/
def signed? : Record → Option Int64
  | .int value =>
    if Int64.minValue.toInt ≤ value ∧ value ≤ Int64.maxValue.toInt then some (Int64.ofInt value)
    else none
  | _ => none

/-- Whether a number is a whole number that fits an unsigned word. -/
def isUnsigned : Record → Bool
  | .int value => 0 ≤ value ∧ value < UInt64.size
  | _ => false

/-- The fraction nearest to a number. -/
def double? : Record → Option Double
  | .int value => some (Double.ofInt value)
  | .float value => some value
  | _ => none

/-- The order of a number relative to a word. Signed words are compared with each other, and only
what lies above them is unsigned. All else is a fraction, compared with the nearest fraction of the
word. -/
def compareNumber? (number : Record) (bound : Int64) : Option Ordering :=
  match number.signed? with
  | some word => some (compare word bound)
  | none =>
    if number.isUnsigned then some .gt
    else number.double?.map fun fraction => fraction.compare (Double.ofInt bound.toInt)

end Record

namespace Scalar

/-- The number that a string denotes when the blanks around it are ignored. -/
def number? (text : String) : Option Double :=
  Double.ofText? (Text.trim text.toList)

/-- Equality within one kind of value, which membership tests use. -/
def strictEq : Record → Scalar → Bool
  | .bool left, .bool right => left == right
  | .int left, .int right => Record.compareNumber? (.int left) right == some .eq
  | .float left, .int right => Record.compareNumber? (.float left) right == some .eq
  | .text left, .text right => left == right
  | _, _ => false

/-- The order of a record's member relative to a literal of the same kind. -/
def ordering? : Record → Scalar → Option Ordering
  | .int left, .int right => Record.compareNumber? (.int left) right
  | .float left, .int right => Record.compareNumber? (.float left) right
  | .text left, .text right => some (compare left right)
  | .bool left, .bool right => some (compare left right)
  | _, _ => none

def denotes (text : String) (number : Double) : Bool :=
  match number? text with
  | some value => value.compare number == .eq
  | none => false

/-- Equality that also holds between a number and a string that denotes it. -/
def looseEq : Record → Scalar → Bool
  | .int left, .text right => denotes right (Double.ofInt left)
  | .float left, .text right => denotes right left
  | .text left, .int right => denotes left (Double.ofInt right.toInt)
  | left, right => strictEq left right

end Scalar

end RecordQuery
