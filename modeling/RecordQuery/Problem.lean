import RecordQuery.Like.Pattern
import RecordQuery.Statement.Reader
import RecordQuery.Token.Lexer

namespace RecordQuery

/-- Why a text is not a query: it has no tokens, its tokens make no statement, or a literal of
the statement has no value. -/
inductive Flaw
  | lexical (error : LexicalError)
  | syntactic (error : SyntaxError)
  | integerRange (numeral : Numeral)
  | pattern (text : String) (fault : Like.RegexFault)
deriving DecidableEq

/-- A flaw and the column where it shows. -/
structure Problem where
  column : Nat
  flaw : Flaw
deriving DecidableEq

def LexicalError.message : LexicalError → String
  | .unterminatedText => "unterminated string literal"
  | .noDigitsAfterMinus => "expected digits after '-'"
  | .unexpectedCharacter c => "unexpected character '" ++ String.singleton c ++ "'"

def Expected.describe : Expected → String
  | .expression => "an expression"
  | .value => "a value"
  | .integer => "an integer"
  | .text => "a string"
  | .punctuation sign => "'" ++ sign.spelling ++ "'"
  | .sortedBy => "'" ++ Keyword.sortedBy.spelling ++ "'"
  | .field => "a field name"
  | .endOfInput => "end of input"

def Expected.isLiteral : Expected → Bool
  | .value => true
  | .integer => true
  | .text => true
  | _ => false

def describeFound : Option TokenKind → String
  | some kind => kind.describe
  | none => "end of input"

/-- What was found where something else was expected. A literal of the wrong kind is shown as
it is written. -/
def describeInstead (expected : Expected) : Option TokenKind → String
  | some kind =>
    if expected.isLiteral && kind.isLiteral then "'" ++ kind.spelling ++ "'" else kind.describe
  | none => describeFound none

def SyntaxError.message : SyntaxError → String
  | .bareValue literal => "a bare value " ++ literal.describe ++ " is not an expression"
  | .nestedTooDeep limit => "nesting deeper than " ++ integerText limit ++ " levels"
  | .noOperator name found =>
    "expected an operator after identifier '" ++ name ++ "', found " ++ describeFound found
  | .unexpected expected found =>
    "expected " ++ expected.describe ++ ", found " ++ describeInstead expected found

def Flaw.message : Flaw → String
  | .lexical error => error.message
  | .syntactic error => error.message
  | .integerRange numeral =>
    "invalid integer '" ++ numeral.spelling ++ "': number too "
      ++ (if numeral.negative then "small" else "large") ++ " to fit in target type"
  | .pattern text fault => "invalid LIKE pattern: " ++ Like.Pattern.report text fault

/-- The message of a problem, which starts with its column. -/
def Problem.message (problem : Problem) : String :=
  "column " ++ integerText problem.column ++ ": " ++ problem.flaw.message

end RecordQuery
