import RecordQuery.Filter
import RecordQuery.Record.Text
import RecordQuery.Value.Compare

namespace RecordQuery

/-- What becomes of a comparison whose member is missing. A lenient evaluation assumes that
it would hold. -/
inductive Mode
  | strict
  | lenient
deriving DecidableEq

/-- The outcome of an evaluation, and whether some comparison on the way was assumed to hold. -/
structure Verdict where
  matched : Bool
  assumed : Bool
deriving DecidableEq

/-- Whether a relation holds between a member and a literal. Equality also compares numbers
with numeric strings, the other relations need values of one kind. -/
def Relation.holds (relation : Relation) (left : Record) (right : Scalar) : Bool :=
  match relation with
  | .eq => Scalar.looseEq left right
  | .ne => !Scalar.looseEq left right
  | .lt => (Scalar.ordering? left right).any Ordering.isLT
  | .le => (Scalar.ordering? left right).any Ordering.isLE
  | .gt => (Scalar.ordering? left right).any Ordering.isGT
  | .ge => (Scalar.ordering? left right).any Ordering.isGE

/-- Whether a member passes a test. Members without a text match no pattern, and only arrays
contain something. -/
def Test.holds (test : Test) (left : Record) : Bool :=
  match test with
  | .relate relation right => relation.holds left right
  | .like pattern => left.text?.any pattern.isMatch
  | .isIn values => values.any (Scalar.strictEq left)
  | .contains text =>
    match left with
    | .array items => items.any fun item => Scalar.strictEq item (.text text)
    | _ => false

/-- Whether a test holds of a missing member. Nothing equals it, so it differs from
everything. -/
def Test.holdsMissing : Test → Bool
  | .relate .ne _ => true
  | _ => false

def Comparison.evaluate (comparison : Comparison) (mode : Mode) (record : Record) : Verdict :=
  match record.resolve comparison.path, mode with
  | some left, _ => ⟨comparison.test.holds left, false⟩
  | none, .strict => ⟨comparison.test.holdsMissing, false⟩
  | none, .lenient => ⟨true, true⟩

namespace Filter

mutual

/-- Evaluates a filter from left to right. -/
def evaluate (mode : Mode) (record : Record) : Filter → Verdict
  | .leaf comparison => comparison.evaluate mode record
  | .node connective children => evaluateAll mode record connective children

/-- Evaluates the children of a node up to the one that decides. What stands behind it is not
looked at, so it assumes nothing either. -/
def evaluateAll (mode : Mode) (record : Record) (connective : Connective) : List Filter → Verdict
  | [] => ⟨connective.neutral, false⟩
  | child :: rest =>
    let verdict := evaluate mode record child
    if verdict.matched = connective.neutral then
      let others := evaluateAll mode record connective rest
      ⟨others.matched, verdict.assumed || others.assumed⟩
    else verdict

end

def accepts (filter : Filter) (record : Record) : Bool :=
  (filter.evaluate .strict record).matched

end Filter

end RecordQuery
