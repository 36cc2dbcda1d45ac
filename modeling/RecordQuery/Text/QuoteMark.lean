namespace RecordQuery

/-- The two characters that can delimit a string. Neither can be escaped, so a string is
delimited by the one that it does not contain. -/
inductive QuoteMark
  | single
  | double
deriving DecidableEq

namespace QuoteMark

/-- The delimiter itself. -/
def char : QuoteMark → Char
  | .single => '\''
  | .double => '"'

/-- Double quotes, unless the text contains one and no single quote. Text with both kinds
cannot be written as a literal and keeps the double ones. -/
def around (text : String) : QuoteMark :=
  if '"' ∈ text.toList ∧ '\'' ∉ text.toList then .single else .double

/-- Text between two delimiters. -/
def enclose (mark : QuoteMark) (text : String) : String :=
  String.ofList (mark.char :: (text.toList ++ [mark.char]))

end QuoteMark

end RecordQuery
