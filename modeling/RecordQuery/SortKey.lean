namespace RecordQuery

inductive Direction
  | asc
  | desc
deriving DecidableEq

def Direction.spelling : Direction → String
  | .asc => "ASC"
  | .desc => "DESC"

structure SortKey where
  field : String
  direction : Direction
deriving DecidableEq

/-- A sort key as query text. The direction is always written. -/
def SortKey.render (key : SortKey) : String :=
  key.field ++ " " ++ key.direction.spelling

end RecordQuery
