import RecordQuery.Like.Regex
import RecordQuery.Number.Integer

namespace RecordQuery.Like

def RegexError.message : RegexError → String
  | .unopenedGroup => "unopened group"
  | .nothingToRepeat => "repetition operator missing expression"
  | .nestedTooDeep =>
    "exceed the maximum number of nested parentheses/brackets ("
      ++ integerText Regex.nestingLimit ++ ")"
  | .unsupported => "unsupported expression"

/-- Where in a text of several lines. Lines and columns count from one. -/
structure LineColumn where
  line : Nat
  column : Nat
deriving DecidableEq

def LineColumn.after (text : List Char) (offset : Nat) : LineColumn :=
  (text.take offset).foldl
    (fun here c => if c = '\n' then ⟨here.line + 1, 1⟩ else ⟨here.line, here.column + 1⟩)
    ⟨1, 1⟩

/-- The lines of a text. A line break ends a line, so none follows the last one, and a carriage
return before it is not part of the line. -/
def linesFrom (current : List Char) : List Char → List (List Char)
  | [] => if current.isEmpty then [] else [current.reverse]
  | '\n' :: rest =>
    let line :=
      match current with
      | '\r' :: earlier => earlier.reverse
      | _ => current.reverse
    line :: linesFrom [] rest
  | c :: rest => linesFrom (c :: current) rest

def row (width : Nat) (sign : Char) : List Char :=
  List.replicate width sign

/-- The lines of an expression with a mark under the faulty part, if that part lies on one
line. -/
def notated (indents : Nat → List Char) (lines : List (List Char)) (first last : LineColumn) :
    List (List Char) :=
  (lines.zipIdx 1).flatMap fun (line, number) =>
    let shown := indents number ++ line
    if first.line = last.line ∧ first.line = number then
      let mark := row (max 1 (last.column - first.column)) '^'
      [shown, row ((indents number).length + (first.column - 1)) ' ' ++ mark]
    else [shown]

/-- Line numbers are aligned to the right and end with a colon and a blank. -/
def numberIndent (width number : Nat) : List Char :=
  let digits := Nat.toDigits 10 number
  row (width - digits.length) ' ' ++ digits ++ [':', ' ']

/-- What is said of a part that spans several lines, under which no mark fits. -/
def spanNote (first last : LineColumn) : String :=
  "on line " ++ integerText first.line ++ " (column " ++ integerText first.column
    ++ ") through line " ++ integerText last.line ++ " (column "
    ++ integerText (last.column - 1) ++ ")"

/-- The report on a fault: the expression with a mark, and the kind of error. An expression
of several lines gets line numbers and rules around it. -/
def RegexFault.message (fault : RegexFault) (text : List Char) : String :=
  let first := LineColumn.after text fault.start
  let last := LineColumn.after text fault.stop
  let lines := linesFrom [] text
  let title := "regex parse error:".toList
  let verdict := ("error: " ++ fault.error.message).toList
  let shown :=
    if '\n' ∈ text then
      let rule := row 79 '~'
      let count := lines.length + if text.getLast? = some '\n' then 1 else 0
      let width := (Nat.toDigits 10 count).length
      let note := if first.line = last.line then [] else [(spanNote first last).toList]
      [title, rule] ++ notated (numberIndent width) lines first last ++ [rule] ++ note ++ [verdict]
    else [title] ++ notated (fun _ => row 4 ' ') lines first last ++ [verdict]
  String.ofList (List.intercalate ['\n'] shown)

end RecordQuery.Like
