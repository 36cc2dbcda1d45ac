namespace RecordQuery.Toml

/-- Characters that stand for themselves in comments and strings: tabs and all that is no
control character. -/
def isPlain (c : Char) : Bool :=
  c == '\t' || (0x20 ≤ c.toNat && c.toNat ≤ 0x7E) || 0x80 ≤ c.toNat

def isBlank (c : Char) : Bool :=
  c == ' ' || c == '\t'

/-- Characters of a key without quotes. -/
def isKeyChar (c : Char) : Bool :=
  c.isAlphanum || c == '-' || c == '_'

def hexDigit? (c : Char) : Option Nat :=
  if c.isDigit then some (c.toNat - '0'.toNat)
  else if 'a' ≤ c ∧ c ≤ 'f' then some (c.toNat - 'a'.toNat + 10)
  else if 'A' ≤ c ∧ c ≤ 'F' then some (c.toNat - 'A'.toNat + 10)
  else none

/-- The character with a code point in hexadecimal digits, if there is one. -/
def codePoint? (digits : List Char) : Option Char := do
  let values ← digits.mapM hexDigit?
  let code := values.foldl (fun value digit => 16 * value + digit) 0
  if code.isValidChar then some (Char.ofNat code) else none

def escaped? : Char → Option Char
  | 'b' => some '\x08'
  | 't' => some '\t'
  | 'n' => some '\n'
  | 'f' => some '\x0c'
  | 'r' => some '\r'
  | '"' => some '"'
  | '\\' => some '\\'
  | _ => none

def before (c : Char) (read : List Char × List Char) : List Char × List Char :=
  (c :: read.1, read.2)

/-- Reads a string up to its double quote, and gives the text after it. -/
def readBasic : List Char → Option (List Char × List Char)
  | '"' :: rest => some ([], rest)
  | '\\' :: 'u' :: a :: b :: c :: d :: rest => do
    let character ← codePoint? [a, b, c, d]
    return before character (← readBasic rest)
  | '\\' :: 'U' :: a :: b :: c :: d :: e :: f :: g :: h :: rest => do
    let character ← codePoint? [a, b, c, d, e, f, g, h]
    return before character (← readBasic rest)
  | '\\' :: letter :: rest => do
    let character ← escaped? letter
    return before character (← readBasic rest)
  | c :: rest => if isPlain c then (readBasic rest).map (before c) else none
  | [] => none

/-- Reads a string up to its single quote. Nothing is escaped in it. -/
def readLiteral : List Char → Option (List Char × List Char)
  | '\'' :: rest => some ([], rest)
  | c :: rest => if isPlain c then (readLiteral rest).map (before c) else none
  | [] => none

/-- Whether nothing but blanks stands before the end of a line. -/
def endsLine (text : List Char) : Bool :=
  match text.dropWhile isBlank with
  | '\n' :: _ => true
  | '\r' :: '\n' :: _ => true
  | _ => false

/-- Reads a string of several lines up to three double quotes. Up to two more of them belong
to the string. A backslash at the end of a line skips all blanks and line breaks after it. -/
def readLongBasic (skipping : Bool) : List Char → Option (List Char × List Char)
  | '"' :: '"' :: '"' :: '"' :: '"' :: rest => some (['"', '"'], rest)
  | '"' :: '"' :: '"' :: '"' :: rest => some (['"'], rest)
  | '"' :: '"' :: '"' :: rest => some ([], rest)
  | '\\' :: 'u' :: a :: b :: c :: d :: rest => do
    let character ← codePoint? [a, b, c, d]
    return before character (← readLongBasic false rest)
  | '\\' :: 'U' :: a :: b :: c :: d :: e :: f :: g :: h :: rest => do
    let character ← codePoint? [a, b, c, d, e, f, g, h]
    return before character (← readLongBasic false rest)
  | '\\' :: letter :: rest =>
    if endsLine (letter :: rest) then readLongBasic true (letter :: rest)
    else do
      let character ← escaped? letter
      return before character (← readLongBasic false rest)
  | '\r' :: '\n' :: rest =>
    if skipping then readLongBasic true rest else (readLongBasic false rest).map (before '\n')
  | '\n' :: rest =>
    if skipping then readLongBasic true rest else (readLongBasic false rest).map (before '\n')
  | c :: rest =>
    if skipping && isBlank c then readLongBasic true rest
    else if isPlain c then (readLongBasic false rest).map (before c)
    else none
  | [] => none

/-- Reads a string of several lines up to three single quotes. -/
def readLongLiteral : List Char → Option (List Char × List Char)
  | '\'' :: '\'' :: '\'' :: '\'' :: '\'' :: rest => some (['\'', '\''], rest)
  | '\'' :: '\'' :: '\'' :: '\'' :: rest => some (['\''], rest)
  | '\'' :: '\'' :: '\'' :: rest => some ([], rest)
  | '\r' :: '\n' :: rest => (readLongLiteral rest).map (before '\n')
  | '\n' :: rest => (readLongLiteral rest).map (before '\n')
  | c :: rest => if isPlain c then (readLongLiteral rest).map (before c) else none
  | [] => none

def dropLineBreak : List Char → List Char
  | '\r' :: '\n' :: rest => rest
  | '\n' :: rest => rest
  | text => text

/-- Reads a string of any of the four kinds. A line break right after the opening of a long
one does not count. -/
def readText : List Char → Option (List Char × List Char)
  | '"' :: '"' :: '"' :: rest => readLongBasic false (dropLineBreak rest)
  | '"' :: rest => readBasic rest
  | '\'' :: '\'' :: '\'' :: rest => readLongLiteral (dropLineBreak rest)
  | '\'' :: rest => readLiteral rest
  | _ => none

/-- Hexadecimal digits, filled up with zeros to a width of four. -/
def fourHexDigits (value : Nat) : List Char :=
  let digits := (Nat.toDigits 16 value).map Char.toUpper
  List.replicate (4 - digits.length) '0' ++ digits

/-- The letter that stands behind a backslash for a character. -/
def escapeLetter? : Char → Option Char
  | '\x08' => some 'b'
  | '\t' => some 't'
  | '\n' => some 'n'
  | '\x0c' => some 'f'
  | '\r' => some 'r'
  | '"' => some '"'
  | '\\' => some '\\'
  | _ => none

/-- A character within double quotes. Control characters without a letter are written by their
code points. -/
def writeChar (c : Char) : List Char :=
  match escapeLetter? c with
  | some letter => ['\\', letter]
  | none => if isPlain c then [c] else '\\' :: 'u' :: fourHexDigits c.toNat

/-- A character of a string of several lines, in which line breaks stand for themselves. -/
def writeLongChar (c : Char) : List Char :=
  if c = '\n' then [c] else writeChar c

/-- Whether a string is written between single quotes: it has double quotes or backslashes, and
nothing that could not stand there. -/
def isLiteral (text : List Char) : Bool :=
  (text.any fun c => c == '"' || c == '\\') && text.all fun c => isPlain c && c != '\''

/-- A string between single quotes, on several lines, or between double quotes. -/
def writeText (text : List Char) : List Char :=
  if isLiteral text then '\'' :: (text ++ ['\''])
  else if '\n' ∈ text then
    '"' :: '"' :: '"' :: '\n' :: (text.flatMap writeLongChar ++ ['"', '"', '"'])
  else '"' :: (text.flatMap writeChar ++ ['"'])

end RecordQuery.Toml
