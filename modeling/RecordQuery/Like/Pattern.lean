import RecordQuery.Like.Regex.Match
import RecordQuery.Like.Regex.Report

namespace RecordQuery.Like

/-- A pattern that was accepted, with the regular expression that decides its matches. -/
structure Pattern where
  text : String
  regex : Regex
deriving DecidableEq

namespace Pattern

def source (text : String) : String :=
  String.ofList (regexText text.toList)

/-- A pattern's expression as it is shown, between slashes. -/
def slashed (text : String) : String :=
  "/" ++ source text ++ "/"

/-- Accepts a pattern, or says why its expression cannot be read. -/
def compile (text : String) : Except RegexFault Pattern :=
  (Regex.read (regexText text.toList)).map fun regex => ⟨text, regex⟩

/-- The report on a pattern that was not accepted. It shows the expression, as the fault lies
there. -/
def report (text : String) (fault : RegexFault) : String :=
  fault.message (regexText text.toList)

def isMatch (pattern : Pattern) (text : String) : Bool :=
  pattern.regex.isMatch text.toList

end Pattern

end RecordQuery.Like
