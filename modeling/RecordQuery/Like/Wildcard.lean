namespace RecordQuery.Like

/-- Signs that have a meaning in regular expressions and none in patterns, so they are
escaped. -/
def plainSigns : List Char :=
  ['?', '[', '{', '(']

/-- The regular expression that a pattern stands for. An underscore is one character and a
percent sign any run, unless a backslash takes their meaning away. Any other backslash
stands for itself, and what is left passes through. -/
def regexText : List Char → List Char
  | [] => []
  | '\\' :: '_' :: rest => '_' :: regexText rest
  | '\\' :: '%' :: rest => '%' :: regexText rest
  | '\\' :: rest => '\\' :: '\\' :: regexText rest
  | '_' :: rest => '.' :: '{' :: '1' :: '}' :: regexText rest
  | '%' :: rest => '.' :: '*' :: regexText rest
  | c :: rest => if c ∈ plainSigns then '\\' :: c :: regexText rest else c :: regexText rest

end RecordQuery.Like
