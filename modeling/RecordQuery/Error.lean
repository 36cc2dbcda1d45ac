import RecordQuery.Problem

namespace RecordQuery

/-- What is wrong with settings: their file cannot be read as settings, they cannot be written,
or they allow no nesting at all. -/
inductive SettingsFault
  | unreadable
  | unwritable
  | noDepth
deriving DecidableEq

/-- What can go wrong. A query text is refused for a flaw, or because it is no list of
assignments where one is needed. -/
inductive Error
  | refused (query : String) (problem : Problem)
  | notAssignments (query : String)
  | settings (fault : SettingsFault)
  | storage
deriving DecidableEq

/-- The message of a settings fault. The detail behind a colon is left to the reader of the
file format. -/
def SettingsFault.message : SettingsFault → String
  | .unreadable => "Failed to parse config: "
  | .unwritable => "Failed to serialize config: "
  | .noDepth => "max_depth must be at least 1"

namespace Error

def isSyntax : Error → Bool
  | .refused .. => true
  | .notAssignments _ => true
  | _ => false

def syntaxMessage (query message : String) : String :=
  "Syntax error in query '" ++ query ++ "': " ++ message

def message : Error → String
  | .refused query problem => syntaxMessage query problem.message
  | .notAssignments query =>
    syntaxMessage query "Set Expression can only contain And and assignment expression '='"
  | .settings fault => "Configuration error: " ++ fault.message
  | .storage => "IO error: "

end Error

end RecordQuery
