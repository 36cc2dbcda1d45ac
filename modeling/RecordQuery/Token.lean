import RecordQuery.Value

namespace RecordQuery

/-- The words that cannot be identifiers. They are written in upper case. -/
inductive Keyword
  | and
  | or
  | like
  | isIn
  | contains
  | order
  | sortedBy
  | asc
  | desc
  | limit
  | offset
deriving DecidableEq

inductive Relation
  | eq
  | ne
  | lt
  | le
  | gt
  | ge
deriving DecidableEq

inductive Punctuation
  | openGroup
  | closeGroup
  | openList
  | closeList
  | comma
deriving DecidableEq

/-- An integer as it is written, which may be too large for any word. -/
structure Numeral where
  negative : Bool
  digits : String
deriving DecidableEq

/-- A string as it is written. The content is taken as it stands. -/
structure QuotedText where
  mark : QuoteMark
  content : String
deriving DecidableEq

inductive TokenKind
  | identifier (name : String)
  | integer (numeral : Numeral)
  | text (literal : QuotedText)
  | boolean (value : Bool)
  | keyword (word : Keyword)
  | relation (operator : Relation)
  | punctuation (sign : Punctuation)
deriving DecidableEq

/-- A token and the column of its first character. Columns count from one. -/
structure Token where
  kind : TokenKind
  column : Nat
deriving DecidableEq

namespace Keyword

def all : List Keyword :=
  [.and, .or, .like, .isIn, .contains, .order, .sortedBy, .asc, .desc, .limit, .offset]

def spelling : Keyword → String
  | .and => "AND"
  | .or => "OR"
  | .like => "LIKE"
  | .isIn => "IN"
  | .contains => "CONTAINS"
  | .order => "ORDER"
  | .sortedBy => "BY"
  | .asc => "ASC"
  | .desc => "DESC"
  | .limit => "LIMIT"
  | .offset => "OFFSET"

end Keyword

def Relation.spelling : Relation → String
  | .eq => "="
  | .ne => "!="
  | .lt => "<"
  | .le => "<="
  | .gt => ">"
  | .ge => ">="

def Punctuation.spelling : Punctuation → String
  | .openGroup => "("
  | .closeGroup => ")"
  | .openList => "["
  | .closeList => "]"
  | .comma => ","

namespace Numeral

def spelling (numeral : Numeral) : String :=
  if numeral.negative then "-" ++ numeral.digits else numeral.digits

def value (numeral : Numeral) : Int :=
  let magnitude : Int := Nat.ofDigitChars 10 numeral.digits.toList 0
  if numeral.negative then -magnitude else magnitude

end Numeral

namespace TokenKind

def spelling : TokenKind → String
  | .identifier name => name
  | .integer numeral => numeral.spelling
  | .text literal => literal.mark.enclose literal.content
  | .boolean value => booleanText value
  | .keyword word => word.spelling
  | .relation operator => operator.spelling
  | .punctuation sign => sign.spelling

def width (kind : TokenKind) : Nat :=
  kind.spelling.length

def isLiteral : TokenKind → Bool
  | .integer _ => true
  | .text _ => true
  | .boolean _ => true
  | _ => false

/-- How a token is named in an error. A string shows its own quotes. -/
def describe (kind : TokenKind) : String :=
  match kind with
  | .identifier name => "identifier '" ++ name ++ "'"
  | .text _ => "string " ++ kind.spelling
  | _ => "'" ++ kind.spelling ++ "'"

end TokenKind

end RecordQuery
