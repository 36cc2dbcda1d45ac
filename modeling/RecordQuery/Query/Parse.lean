import RecordQuery.Error
import RecordQuery.Query.Build
import RecordQuery.Settings

namespace RecordQuery

def endColumn (text : String) : Nat :=
  text.length + 1

/-- Reads a text as a statement. The whole text is cut into tokens before any of them is
looked at. -/
def Statement.read (limit : Nat) (text : String) : Except Problem Statement :=
  match Token.scan text.toList with
  | .error (column, error) => .error ⟨column, .lexical error⟩
  | .ok tokens =>
    match Statement.ofTokens limit tokens (endColumn text) with
    | .error (column, error) => .error ⟨column, .syntactic error⟩
    | .ok statement => .ok statement

namespace Query

/-- Reads a text as a query, or finds its first problem. -/
def read (limit : Nat) (text : String) : Except Problem Query := do
  ofStatement (← Statement.read limit text)

/-- Reads a text as a query. The error carries the text. -/
def parse (settings : Settings) (text : String) : Except Error Query :=
  (read settings.maxDepth text).mapError (.refused text)

end Query

end RecordQuery
