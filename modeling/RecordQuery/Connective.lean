namespace RecordQuery

/-- The two ways to join conditions. -/
inductive Connective
  | and
  | or
deriving DecidableEq

namespace Connective

def spelling : Connective → String
  | .and => "AND"
  | .or => "OR"

/-- The result of joining no conditions, which also is the result that lets the next condition
decide. -/
def neutral : Connective → Bool
  | .and => true
  | .or => false

end Connective

end RecordQuery
