import RecordQuery.Toml.Moment
import RecordQuery.Toml.Number

namespace RecordQuery.Toml

/-- How many arrays and tables between braces may stand within one another, and how many parts
a key may have. -/
def nestingLimit : Nat := 79

def skipBlanks (text : List Char) : List Char :=
  text.dropWhile isBlank

/-- Skips blanks, line breaks and comments, which may stand between the items of an array. -/
def skipLayout (inComment : Bool) : List Char → List Char
  | '\r' :: '\n' :: rest => skipLayout false rest
  | '\n' :: rest => skipLayout false rest
  | c :: rest =>
    if inComment then if isPlain c then skipLayout true rest else c :: rest
    else if c = '#' then skipLayout true rest
    else if isBlank c then skipLayout false rest
    else c :: rest
  | [] => []

/-- Skips the rest of a line, which may hold blanks and a comment, with its line break. -/
def skipLineEnd (text : List Char) : Option (List Char) :=
  let rest :=
    match skipBlanks text with
    | '#' :: comment => comment.dropWhile isPlain
    | rest => rest
  match rest with
  | [] => some []
  | '\n' :: rest => some rest
  | '\r' :: '\n' :: rest => some rest
  | _ => none

def readKeyPart : List Char → Option (String × List Char)
  | '"' :: rest => (readBasic rest).map fun (part, rest) => (String.ofList part, rest)
  | '\'' :: rest => (readLiteral rest).map fun (part, rest) => (String.ofList part, rest)
  | text =>
    match text.takeWhile isKeyChar with
    | [] => none
    | part => some (String.ofList part, text.dropWhile isKeyChar)

/-- Reads a key of at most `bound` parts with dots between them, and gives the parts before
the last one apart. Blanks around the parts do not count. -/
def readKey : Nat → List Char → Option (List String × String × List Char)
  | 0, _ => none
  | bound + 1, text => do
    let (part, rest) ← readKeyPart (skipBlanks text)
    match skipBlanks rest with
    | '.' :: rest => do
      let (path, key, rest) ← readKey bound rest
      return (part :: path, key, rest)
    | rest => return ([], part, rest)

/-- Reads a value that does not contain others. -/
def readSimple (text : List Char) : Option (Value × List Char) :=
  match text with
  | [] => none
  | c :: _ =>
    if c = '"' ∨ c = '\'' then
      (readText text).map fun (value, rest) => (.text (String.ofList value), rest)
    else
      match text with
      | 't' :: 'r' :: 'u' :: 'e' :: rest => some (.boolean true, rest)
      | 'f' :: 'a' :: 'l' :: 's' :: 'e' :: rest => some (.boolean false, rest)
      | _ => ((readMoment text).or (readFraction text)).or (readInteger text)

/-- Reads the items of an array up to its bracket. A comma may stand behind the last one. The
first argument bounds the number of items. -/
def readItems (readItem : List Char → Option (Value × List Char)) :
    Nat → List Char → Option (List Value × List Char)
  | 0, _ => none
  | bound + 1, text =>
    match skipLayout false text with
    | ']' :: rest => some ([], rest)
    | start => do
      let (item, rest) ← readItem start
      match skipLayout false rest with
      | ',' :: rest => do
        let (items, rest) ← readItems readItem bound rest
        return (item :: items, rest)
      | ']' :: rest => return ([item], rest)
      | _ => none

def readAssignment (readItem : List Char → Option (Value × List Char)) (text : List Char) :
    Option (List String × String × Value × List Char) := do
  let (path, key, rest) ← readKey nestingLimit text
  match rest with
  | '=' :: rest => do
    let (value, rest) ← readItem (skipBlanks rest)
    return (path, key, value, rest)
  | _ => none

/-- Reads the members of a table between braces. No comma stands behind the last one. The
first argument bounds their number. -/
def readMembers (readItem : List Char → Option (Value × List Char)) :
    Nat → Members → List Char → Option (Members × List Char)
  | 0, _, _ => none
  | bound + 1, members, text => do
    let (path, key, value, rest) ← readAssignment readItem text
    let members ← members.addDotted? key value true path
    match skipBlanks rest with
    | ',' :: rest => readMembers readItem bound members rest
    | '}' :: rest => return (members, rest)
    | _ => none

/-- Reads a value whose parts nest at most as deep as the first argument says. -/
def readValue : Nat → List Char → Option (Value × List Char)
  | 0, text => readSimple text
  | depth + 1, text =>
    match text with
    | '[' :: rest =>
      (readItems (readValue depth) (rest.length + 1) rest).map fun (items, rest) =>
        (.array items, rest)
    | '{' :: rest =>
      match skipBlanks rest with
      | '}' :: rest => some (.table .inline [], rest)
      | rest =>
        (readMembers (readValue depth) (rest.length + 1) [] rest).map fun (members, rest) =>
          (.table .inline members, rest)
    | _ => readSimple text

/-- A document up to some line: all members so far, and the header that the next ones belong
under. -/
structure Progress where
  members : Members
  header : List String

/-- Reads a header between brackets and begins its table. -/
def readHeader (begin? : String → Members → Option Members) (progress : Progress)
    (text : List Char) : Option (Progress × List Char) := do
  let (path, key, rest) ← readKey nestingLimit text
  let members ← progress.members.changeAt? (begin? key) path
  return (⟨members, path ++ [key]⟩, rest)

/-- Reads a line that is not empty, up to its line break. -/
def readLine (progress : Progress) : List Char → Option (Progress × List Char)
  | '[' :: '[' :: text => do
    let (progress, rest) ← readHeader Members.beginNext? progress text
    match rest with
    | ']' :: ']' :: rest => return (progress, rest)
    | _ => none
  | '[' :: text => do
    let (progress, rest) ← readHeader Members.begin? progress text
    match rest with
    | ']' :: rest => return (progress, rest)
    | _ => none
  | text => do
    let (path, key, value, rest) ← readAssignment (readValue nestingLimit) text
    let add := Members.addDotted? key value true path
    let members ← progress.members.changeAt? add progress.header
    return (⟨members, progress.header⟩, rest)

/-- Reads the lines of a document. The first argument bounds their number. -/
def readLines : Nat → Progress → List Char → Option Members
  | 0, _, _ => none
  | bound + 1, progress, text =>
    match skipBlanks text with
    | [] => some progress.members
    | start =>
      match skipLineEnd start with
      | some rest => readLines bound progress rest
      | none => do
        let (progress, rest) ← readLine progress start
        readLines bound progress (← skipLineEnd rest)

/-- A mark that may stand before a text to tell its encoding. -/
def byteOrderMark : Char := '\ufeff'

def readDocument (text : List Char) : Option Members :=
  let text :=
    match text with
    | c :: rest => if c = byteOrderMark then rest else text
    | [] => []
  readLines (text.length + 1) ⟨[], []⟩ text

/-- An array, with a line and a comma for each item unless it is the only one. -/
def writeArray : List (List Char) → List Char
  | [] => ['[', ']']
  | [item] => '[' :: (item ++ [']'])
  | items =>
    '[' :: (items.flatMap (fun item => '\n' :: ' ' :: ' ' :: ' ' :: ' ' :: (item ++ [','])) ++
      ['\n', ']'])

def writeDatum : Datum → Option (List Char)
  | .number value => if value ≤ greatestInteger then some (Nat.toDigits 10 value) else none
  | .texts items => some (writeArray (items.map fun item => writeText item.toList))

def writeLine (key value : List Char) : List Char :=
  key ++ ' ' :: '=' :: ' ' :: (value ++ ['\n'])

/-- A document of one line or array for each member. The keys must be such that they need no
quotes, and numbers beyond the integers of the format cannot be written. -/
def writeDocument : List (String × Datum) → Option (List Char)
  | [] => some []
  | (key, datum) :: rest => do
    let value ← writeDatum datum
    return writeLine key.toList value ++ (← writeDocument rest)

end RecordQuery.Toml
