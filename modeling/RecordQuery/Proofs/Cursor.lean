import RecordQuery.Query.Parse

/-!
Reading a text by positions: its characters and its tokens stand in lists that are looked up by index, and
a recursive descent moves a position over the tokens. Every look-up, every move and every round of a loop
checks what it relies on, so that a reading which comes to its end without a breach has neither left a list
nor turned in a circle.
-/

namespace RecordQuery

/-- What a reading by positions must never do. -/
inductive Breach
  /-- Look up an index, cut out a part or move to a position where there is nothing. -/
  | outOfRange
  /-- Move over the end of input. -/
  | endPassed
  /-- Go round a loop or into a group without consuming anything. -/
  | noProgress
  /-- Count at least as many open groups as there are tokens. -/
  | tooManyGroups
  /-- Take the quotes off a text of fewer than two characters. -/
  | noQuotes
deriving DecidableEq

/-- What comes of a reading by positions. -/
inductive Outcome (ε α : Type)
  | done (value : α)
  | refused (error : ε)
  | breached (breach : Breach)

namespace Outcome

variable {ε ε' α β : Type}

def bind : Outcome ε α → (α → Outcome ε β) → Outcome ε β
  | .done value, next => next value
  | .refused error, _ => .refused error
  | .breached breach, _ => .breached breach

instance : Monad (Outcome ε) where
  pure := .done
  bind := bind

def mapError (image : ε → ε') : Outcome ε α → Outcome ε' α
  | .done value => .done value
  | .refused error => .refused (image error)
  | .breached breach => .breached breach

def ofExcept : Except ε α → Outcome ε α
  | .ok value => .done value
  | .error error => .refused error

@[simp] theorem done_bind (value : α) (next : α → Outcome ε β) :
    (.done value >>= next) = next value := rfl

theorem ofExcept_ne_breached (result : Except ε α) (breach : Breach) :
    ofExcept result ≠ .breached breach := by
  cases result <;> nofun

end Outcome

namespace Cursor

/-- An entry of the list of tokens: a token, or the end of input. Both have a column. -/
structure Entry where
  kind? : Option TokenKind
  column : Nat

section Lists

variable {ε α : Type}

/-- The item at an index, which has to be there. -/
def itemAt (items : List α) (index : Nat) : Outcome ε α :=
  match items[index]? with
  | some item => .done item
  | none => .breached .outOfRange

/-- The items from one index up to another one. Both have to be in range and in order. -/
def slice (items : List α) (start stop : Nat) : Outcome ε (List α) :=
  if start ≤ stop ∧ stop ≤ items.length then .done ((items.drop start).take (stop - start))
  else .breached .outOfRange

end Lists

/-- A text without its first and its last character, which have to be two. -/
def unquote {ε : Type} (written : List Char) : Outcome ε String :=
  if 2 ≤ written.length then .done (String.ofList written.tail.dropLast) else .breached .noQuotes

/-! ### Tokens -/

section Scanning

variable (chars : List Char) (position : Nat)

/-- Reads a string. Its quotes are taken off at once, whether the string will be of use or not. -/
def textAt (mark : QuoteMark) : Outcome LexicalError (TokenKind × Nat) := do
  let behind ← slice chars (position + 1) chars.length
  match behind.findIdx? (· == mark.char) with
  | none => .refused .unterminatedText
  | some stop =>
    let written ← slice chars position (position + (stop + 2))
    let content ← unquote written
    return (.text ⟨mark, content⟩, stop + 2)

def integerAt (negative : Bool) : Outcome LexicalError (TokenKind × Nat) := do
  let first := if negative then position + 1 else position
  let behind ← slice chars first chars.length
  let digits := (behind.takeWhile Char.isDigit).length
  if digits = 0 then .refused .noDigitsAfterMinus
  else
    let length := first - position + digits
    let written ← slice chars position (position + length)
    return (.integer ⟨negative, String.ofList (written.drop (first - position))⟩, length)

def nameAt : Outcome LexicalError (TokenKind × Nat) := do
  let behind ← slice chars position chars.length
  let length := (behind.takeWhile Token.continuesName).length
  let written ← slice chars position (position + length)
  return (Token.ofName (String.ofList written), length)

/-- Whether there is an equals sign behind the position. There may be nothing. -/
def equalsBehind : Bool :=
  chars[position + 1]? == some '='

/-- Reads the token that begins with the character at the position, with its length. -/
def kindAt (c : Char) : Outcome LexicalError (TokenKind × Nat) :=
  match c with
  | '(' => .done (.punctuation .openGroup, 1)
  | ')' => .done (.punctuation .closeGroup, 1)
  | '[' => .done (.punctuation .openList, 1)
  | ']' => .done (.punctuation .closeList, 1)
  | ',' => .done (.punctuation .comma, 1)
  | '=' => .done (.relation .eq, 1)
  | '!' =>
    if equalsBehind chars position then .done (.relation .ne, 2)
    else .refused (.unexpectedCharacter '!')
  | '<' => .done (if equalsBehind chars position then (.relation .le, 2) else (.relation .lt, 1))
  | '>' => .done (if equalsBehind chars position then (.relation .ge, 2) else (.relation .gt, 1))
  | '\'' => textAt chars position .single
  | '"' => textAt chars position .double
  | '-' => integerAt chars position true
  | _ =>
    if c.isDigit then integerAt chars position false
    else if Token.startsName c then nameAt chars position
    else .refused (.unexpectedCharacter c)

/-- One round: the token at the position, if there is no blank, and how many characters it takes. -/
def round : Outcome (Nat × LexicalError) (List Entry × Nat) := do
  let c ← itemAt chars position
  if Text.isBlank c then return ([], 1)
  else
    let (kind, length) ← (kindAt chars position c).mapError ((position + 1, ·))
    return ([⟨some kind, position + 1⟩], length)

end Scanning

/-- The entries for the characters from a position on, behind those before it. The end of input is the
last one. -/
def scanFrom (chars : List Char) (entries : List Entry) (position : Nat) :
    Outcome (Nat × LexicalError) (List Entry) :=
  if position < chars.length then do
    let (more, length) ← round chars position
    if 0 < length then scanFrom chars (entries ++ more) (position + length)
    else .breached .noProgress
  else return entries ++ [⟨none, chars.length + 1⟩]
termination_by chars.length - position

/-! ### The position in the list of tokens -/

section Moves

abbrev Reading (α : Type) :=
  Outcome (Nat × SyntaxError) α

/-- A position behind another one, with a token or the end of input at it. -/
abbrev Ahead (entries : List Entry) (position : Nat) :=
  { next : Nat // position < next ∧ next < entries.length }

variable (entries : List Entry)

/-- The position behind a token. There has to be something, and the end of input is not passed. -/
def pass (position : Nat) : Reading (Ahead entries position) := do
  let entry ← itemAt entries position
  if entry.kind? = none then .breached .endPassed
  else if inside : position + 1 < entries.length then return ⟨position + 1, by omega, inside⟩
  else .breached .outOfRange

/-- What a part of the reading gives, if it has consumed something. -/
def consuming {α : Type} (position : Nat) (part : Reading (α × Nat)) :
    Reading (α × Ahead entries position) := do
  let (value, next) ← part
  if ahead : position < next ∧ next < entries.length then return (value, ⟨next, ahead⟩)
  else .breached .noProgress

/-- Takes the entry at the position. At the end of input the position stays. -/
def advance (position : Nat) : Reading (Entry × Nat) := do
  let entry ← itemAt entries position
  match entry.kind? with
  | none => return (entry, position)
  | some _ => return (entry, (← pass entries position).val)

/-- Moves over an entry of a kind, if there is one. -/
def eat (kind? : Option TokenKind) (position : Nat) : Reading (Option (Ahead entries position)) := do
  let entry ← itemAt entries position
  if entry.kind? = kind? then return some (← pass entries position) else return none

def unexpected {α : Type} (expected : Expected) (position : Nat) : Reading α := do
  let entry ← itemAt entries position
  .refused (entry.column, .unexpected expected entry.kind?)

def expect (kind? : Option TokenKind) (expected : Expected) (position : Nat) :
    Reading (Unit × Nat) := do
  match ← eat entries kind? position with
  | some next => return ((), next.val)
  | none => unexpected entries expected position

/-- Takes a token that has a value. -/
def literal {α : Type} (expected : Expected) (value? : Token → Option α) (position : Nat) :
    Reading (α × Nat) := do
  let (entry, next) ← advance entries position
  match entry.kind?.bind fun kind => value? ⟨kind, entry.column⟩ with
  | some value => return (value, next)
  | none => .refused (entry.column, .unexpected expected entry.kind?)

end Moves

end Cursor

/-- The numeral of a token, with its column. -/
def Token.numeral? (token : Token) : Option (Numeral × Nat) :=
  match token.kind with
  | .integer numeral => some (numeral, token.column)
  | _ => none

/-- The text of a token, with its column. -/
def Token.text? (token : Token) : Option (String × Nat) :=
  match token.kind with
  | .text literal => some (literal.content, token.column)
  | _ => none

namespace Cursor

/-! ### Conditions -/

section Conditions

variable (entries : List Entry)

def moreLiterals (literals : List Literal) (position : Nat) : Reading (List Literal × Nat) := do
  match ← eat entries (some (.punctuation .comma)) position with
  | some ⟨next, _⟩ =>
    let (value, ⟨behind, _⟩) ← consuming entries next (literal entries .value Token.literal? next)
    moreLiterals (literals ++ [value]) behind
  | none => return (literals, position)
termination_by entries.length - position

def literals (position : Nat) : Reading (List Literal × Nat) := do
  let ((), opened) ← expect entries (some (.punctuation .openList)) (.punctuation .openList) position
  let (first, next) ← literal entries .value Token.literal? opened
  let (values, behind) ← moreLiterals entries [first] next
  let ((), closed) ← expect entries (some (.punctuation .closeList)) (.punctuation .closeList) behind
  return (values, closed)

def condition (name : String) (position : Nat) : Reading (Node × Nat) := do
  let (entry, next) ← advance entries position
  match entry.kind? with
  | some (.keyword .like) =>
    let ((pattern, column), behind) ← literal entries .text Token.text? next
    return (.leaf ⟨name, .like pattern column⟩, behind)
  | some (.keyword .contains) =>
    let ((text, _), behind) ← literal entries .text Token.text? next
    return (.leaf ⟨name, .contains text⟩, behind)
  | some (.keyword .isIn) =>
    let (values, behind) ← literals entries next
    return (.leaf ⟨name, .isIn values⟩, behind)
  | some (.relation relation) =>
    let (value, behind) ← literal entries .value Token.literal? next
    return (.leaf ⟨name, .relate relation value⟩, behind)
  | found => .refused (entry.column, .noOperator name found)

end Conditions

/-! ### Expressions -/

section Expressions

variable (entries : List Entry) (limit : Nat)

/-- The group around a content, up to its end. -/
def grouped (content : Reading (Node × Nat)) : Reading (Node × Nat) := do
  let (node, behind) ← content
  let ((), closed) ← expect entries (some (.punctuation .closeGroup)) (.punctuation .closeGroup) behind
  return (.group node, closed)

-- Every round and every group leaves fewer tokens. A first operand stands where the whole does, so
-- alternatives come before conjuncts, and conjuncts before operands.
mutual

def alternatives (depth position : Nat) : Reading (Node × Nat) := do
  let (first, ⟨next, _⟩) ← consuming entries position (conjuncts depth position)
  moreAlternatives depth [first] next
termination_by (entries.length - position, 2)

def moreAlternatives (depth : Nat) (operands : List Node) (position : Nat) : Reading (Node × Nat) := do
  match ← eat entries (some (.keyword .or)) position with
  | some ⟨next, _⟩ =>
    let (operand, ⟨behind, _⟩) ← consuming entries next (conjuncts depth next)
    moreAlternatives depth (operands ++ [operand]) behind
  | none => return (.join .or operands, position)
termination_by (entries.length - position, 0)

def conjuncts (depth position : Nat) : Reading (Node × Nat) := do
  let (first, ⟨next, _⟩) ← consuming entries position (operand depth position)
  moreConjuncts depth [first] next
termination_by (entries.length - position, 1)

def moreConjuncts (depth : Nat) (operands : List Node) (position : Nat) : Reading (Node × Nat) := do
  match ← eat entries (some (.keyword .and)) position with
  | some ⟨next, _⟩ =>
    let (another, ⟨behind, _⟩) ← consuming entries next (operand depth next)
    moreConjuncts depth (operands ++ [another]) behind
  | none => return (.join .and operands, position)
termination_by (entries.length - position, 0)

/-- Reads a condition or a group inside so many groups. As fewer groups are open than there are tokens,
one more can be counted. -/
def operand (depth position : Nat) : Reading (Node × Nat) := do
  if entries.length ≤ depth then .breached .tooManyGroups
  let (entry, next) ← advance entries position
  match entry.kind? with
  | some (.punctuation .openGroup) =>
    if depth + 1 > limit then .refused (entry.column, .nestedTooDeep limit)
    else if _ahead : position < next ∧ next < entries.length then
      grouped entries (alternatives (depth + 1) next)
    else .breached .noProgress
  | some (.identifier name) => condition entries name next
  | some kind =>
    .refused (entry.column, if kind.isLiteral then .bareValue kind else .unexpected .expression kind)
  | none => .refused (entry.column, .unexpected .expression none)
termination_by (entries.length - position, 0)

end

end Expressions

/-! ### Statements -/

section Clauses

variable (entries : List Entry)

def direction (position : Nat) : Reading (Direction × Nat) := do
  match ← eat entries (some (.keyword .asc)) position with
  | some next => return (.asc, next.val)
  | none =>
    match ← eat entries (some (.keyword .desc)) position with
    | some next => return (.desc, next.val)
    | none => return (.asc, position)

def sortKey (position : Nat) : Reading (SortKey × Nat) := do
  let (entry, next) ← advance entries position
  match entry.kind? with
  | some (.identifier field) =>
    let (order, behind) ← direction entries next
    return (⟨field, order⟩, behind)
  | found => .refused (entry.column, .unexpected .field found)

def sortKeys (keys : List SortKey) (position : Nat) : Reading (List SortKey × Nat) := do
  let (key, ⟨next, _⟩) ← consuming entries position (sortKey entries position)
  match ← eat entries (some (.punctuation .comma)) next with
  | some ⟨behind, _⟩ => sortKeys (keys ++ [key]) behind
  | none => return (keys ++ [key], next)
termination_by entries.length - position

/-- A clause that begins with a keyword. Without the keyword nothing is read. -/
def clause {α : Type} (word : Keyword) (content : Nat → Reading (α × Nat)) (position : Nat) :
    Reading (Option α × Nat) := do
  match ← eat entries (some (.keyword word)) position with
  | some next =>
    let (value, behind) ← content next
    return (some value, behind)
  | none => return (none, position)

def orderContent (position : Nat) : Reading (List SortKey × Nat) := do
  let ((), next) ← expect entries (some (.keyword .sortedBy)) .sortedBy position
  sortKeys entries [] next

def beginsClause : Option TokenKind → Bool
  | none | some (.keyword .order) | some (.keyword .limit) | some (.keyword .offset) => true
  | _ => false

def expression? (limit : Nat) : Reading (Option Node × Nat) := do
  let entry ← itemAt entries 0
  if beginsClause entry.kind? then return (none, 0)
  else
    let (node, next) ← alternatives entries limit 0 0
    return (some node, next)

/-- What has been read, if nothing else follows. -/
def ending (read : Statement) (position : Nat) : Reading Statement := do
  let entry ← itemAt entries position
  if entry.kind? = none then return read else unexpected entries .endOfInput position

def statement (limit : Nat) : Reading Statement := do
  let (node?, next) ← expression? entries limit
  let (order?, next) ← clause entries .order (orderContent entries) next
  let (limit?, next) ← clause entries .limit (literal entries .integer Token.numeral?) next
  let (offset?, next) ← clause entries .offset (literal entries .text Token.text?) next
  ending entries ⟨node?, order?, limit?, offset?.map Prod.fst⟩ next

end Clauses

/-- Reads a text as a statement, with a position in its characters and one in its tokens. -/
def read (limit : Nat) (text : String) : Outcome Problem Statement := do
  let entries ← (scanFrom text.toList [] 0).mapError fun (column, error) => ⟨column, .lexical error⟩
  (statement entries limit).mapError fun (column, error) => ⟨column, .syntactic error⟩

end Cursor

end RecordQuery
