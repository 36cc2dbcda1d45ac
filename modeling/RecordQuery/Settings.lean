namespace RecordQuery

/-- What can be set: how deep parentheses may nest in a query, and which names a patch never
writes to. -/
structure Settings where
  maxDepth : Nat
  reserved : List String
deriving DecidableEq

namespace Settings

/-- The settings that hold where nothing is said. -/
def builtIn : Settings :=
  ⟨64, ["__proto__"]⟩

/-- Whether a patch leaves a name alone. -/
def isReserved (settings : Settings) (segment : String) : Bool :=
  segment ∈ settings.reserved

end Settings

end RecordQuery
