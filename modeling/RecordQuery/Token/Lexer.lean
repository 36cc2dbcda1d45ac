import RecordQuery.Text.Blank
import RecordQuery.Token

namespace RecordQuery

inductive LexicalError
  | unterminatedText
  | noDigitsAfterMinus
  | unexpectedCharacter (c : Char)
deriving DecidableEq

namespace Token

def startsName (c : Char) : Bool :=
  c.isAlpha || c == '_'

/-- Characters that can continue an identifier. Dots separate the parts of a path. -/
def continuesName (c : Char) : Bool :=
  c.isAlphanum || c == '_' || c == '.'

/-- A name that is a keyword or a boolean literal is not an identifier. -/
def ofName (name : String) : TokenKind :=
  if name = booleanText true then .boolean true
  else if name = booleanText false then .boolean false
  else
    match Keyword.all.find? fun word => word.spelling == name with
    | some word => .keyword word
    | none => .identifier name

/-- Reads the rest of a string up to its delimiter. -/
def readText (mark : QuoteMark) (rest : List Char) : Except LexicalError (TokenKind × List Char) :=
  let content := rest.takeWhile (· != mark.char)
  match rest.dropWhile (· != mark.char) with
  | [] => .error .unterminatedText
  | _ :: rest => .ok (.text ⟨mark, String.ofList content⟩, rest)

def readInteger (negative : Bool) (text : List Char) :
    Except LexicalError (TokenKind × List Char) :=
  match text.takeWhile Char.isDigit with
  | [] => .error .noDigitsAfterMinus
  | digits =>
    .ok (.integer ⟨negative, String.ofList digits⟩, text.dropWhile Char.isDigit)

/-- Reads the token that begins with a character. A name or an integer is as long as can be,
and so is a relation. -/
def readKind (c : Char) (rest : List Char) : Except LexicalError (TokenKind × List Char) :=
  match c, rest with
  | '(', _ => .ok (.punctuation .openGroup, rest)
  | ')', _ => .ok (.punctuation .closeGroup, rest)
  | '[', _ => .ok (.punctuation .openList, rest)
  | ']', _ => .ok (.punctuation .closeList, rest)
  | ',', _ => .ok (.punctuation .comma, rest)
  | '=', _ => .ok (.relation .eq, rest)
  | '!', '=' :: rest => .ok (.relation .ne, rest)
  | '<', '=' :: rest => .ok (.relation .le, rest)
  | '<', _ => .ok (.relation .lt, rest)
  | '>', '=' :: rest => .ok (.relation .ge, rest)
  | '>', _ => .ok (.relation .gt, rest)
  | '\'', _ => readText .single rest
  | '"', _ => readText .double rest
  | '-', _ => readInteger true rest
  | _, _ =>
    if c.isDigit then readInteger false (c :: rest)
    else if startsName c then
      .ok (ofName (String.ofList (c :: rest.takeWhile continuesName)),
        rest.dropWhile continuesName)
    else .error (.unexpectedCharacter c)

theorem readText_length {mark : QuoteMark} {text rest : List Char} {kind : TokenKind}
    (read : readText mark text = .ok (kind, rest)) : rest.length < text.length := by
  have bound : (text.dropWhile (· != mark.char)).length ≤ text.length :=
    (List.dropWhile_suffix _).length_le
  unfold readText at read
  split at read
  · cases read
  · next dropped =>
    cases read
    simp only [dropped, List.length_cons] at bound
    omega

theorem readInteger_length {negative : Bool} {text rest : List Char} {kind : TokenKind}
    (read : readInteger negative text = .ok (kind, rest)) : rest.length < text.length := by
  unfold readInteger at read
  split at read
  · cases read
  · next digits =>
    cases read
    cases text with
    | nil => simp at digits
    | cons c text =>
      by_cases digit : c.isDigit
      · have bound : (text.dropWhile Char.isDigit).length ≤ text.length :=
          (List.dropWhile_suffix _).length_le
        simp only [List.dropWhile_cons, digit, if_true, List.length_cons]
        omega
      · simp [digit] at digits

/-- Every token takes at least one character, so reading a text comes to its end. -/
theorem readKind_length {c : Char} {text rest : List Char} {kind : TokenKind}
    (read : readKind c text = .ok (kind, rest)) : rest.length ≤ text.length := by
  unfold readKind at read
  split at read
  case h_12 => exact Nat.le_of_lt (readText_length read)
  case h_13 => exact Nat.le_of_lt (readText_length read)
  case h_14 => exact Nat.le_of_lt (readInteger_length read)
  case h_15 =>
    split at read
    · have bound := readInteger_length read
      simp only [List.length_cons] at bound
      omega
    · split at read
      · cases read
        exact (List.dropWhile_suffix _).length_le
      · cases read
  all_goals
    cases read
    simp

/-- Reads the tokens of a text that starts at a column. Blanks only separate tokens. -/
def scanFrom (column : Nat) : List Char → Except (Nat × LexicalError) (List Token)
  | [] => .ok []
  | c :: rest =>
    if Text.isBlank c then scanFrom (column + 1) rest
    else
      match _read : readKind c rest with
      | .error error => .error (column, error)
      | .ok (kind, rest) =>
        (scanFrom (column + kind.width) rest).map (⟨kind, column⟩ :: ·)
termination_by text => text.length
decreasing_by
  · simp
  · have bound := readKind_length _read
    simp only [List.length_cons]
    omega

/-- Reads the tokens of a text, or finds the first place where there is none. -/
def scan (text : List Char) : Except (Nat × LexicalError) (List Token) :=
  scanFrom 1 text

end Token

end RecordQuery
