import RecordQuery.Statement

namespace RecordQuery

inductive Expected
  | expression
  | value
  | integer
  | text
  | punctuation (sign : Punctuation)
  | sortedBy
  | field
  | endOfInput
deriving DecidableEq

/-- Why a statement cannot go on. What was found is a token, or nothing at the end. -/
inductive SyntaxError
  | bareValue (literal : TokenKind)
  | nestedTooDeep (limit : Nat)
  | noOperator (name : String) (found : Option TokenKind)
  | unexpected (expected : Expected) (found : Option TokenKind)
deriving DecidableEq

/-- An expression, or the content of a group, up to a place inside it: the alternatives that
are complete and the operands of the current one. Both have the latest first. -/
structure Level where
  alternatives : List Node
  operands : List Node

namespace Level

def empty : Level :=
  ⟨[], []⟩

def push (level : Level) (operand : Node) : Level :=
  { level with operands := operand :: level.operands }

/-- The alternatives with the current one among them, the latest first. -/
def closed (level : Level) : List Node :=
  Node.join .and level.operands.reverse :: level.alternatives

/-- Ends the current alternative and begins another one. -/
def nextAlternative (level : Level) : Level :=
  ⟨level.closed, []⟩

/-- The node that the level amounts to when it ends. -/
def toNode (level : Level) : Node :=
  Node.join .or level.closed.reverse

end Level

/-- The levels at a place of an expression: the one that the place belongs to, and those of
the groups around it from the inside out. -/
structure Levels where
  inner : Level
  outer : List Level

namespace Levels

def empty : Levels :=
  ⟨.empty, []⟩

def depth (levels : Levels) : Nat :=
  levels.outer.length

def enter (levels : Levels) : Levels :=
  ⟨.empty, levels.inner :: levels.outer⟩

def push (levels : Levels) (operand : Node) : Levels :=
  { levels with inner := levels.inner.push operand }

def pushLeaf (levels : Levels) (name : String) (test : ConditionTest) : Levels :=
  levels.push (.leaf ⟨name, test⟩)

def nextAlternative (levels : Levels) : Levels :=
  { levels with inner := levels.inner.nextAlternative }

/-- Closes the innermost group, if there is one. -/
def leave? (levels : Levels) : Option Levels :=
  match levels.outer with
  | [] => none
  | level :: outer => some ⟨level.push (.group levels.inner.toNode), outer⟩

end Levels

/-- A place in a statement, with what has been read so far. The name says what comes next,
or what has just come to an end. -/
inductive Place
  | start
  | operand (levels : Levels)
  | operator (levels : Levels) (name : String)
  | related (levels : Levels) (name : String) (relation : Relation)
  | pattern (levels : Levels) (name : String)
  | element (levels : Levels) (name : String)
  | listStart (levels : Levels) (name : String)
  | listItem (levels : Levels) (name : String) (items : List Literal)
  | listNext (levels : Levels) (name : String) (items : List Literal)
  | operandEnd (levels : Levels)
  | sortedBy (read : Statement)
  | sortField (read : Statement) (keys : List SortKey)
  | sortDirection (read : Statement) (keys : List SortKey) (field : String)
  | sortKeyEnd (read : Statement) (keys : List SortKey)
  | limit (read : Statement)
  | limitEnd (read : Statement)
  | offset (read : Statement)
  | offsetEnd (read : Statement)

namespace Place

/-- The clause that a keyword begins, after an expression or instead of one. -/
def clause? (read : Statement) : TokenKind → Option Place
  | .keyword .order => some (.sortedBy read)
  | .keyword .limit => some (.limit read)
  | .keyword .offset => some (.offset read)
  | _ => none

def clauseAfterOrder? (read : Statement) : TokenKind → Option Place
  | .keyword .limit => some (.limit read)
  | .keyword .offset => some (.offset read)
  | _ => none

def ofExpression (expression? : Option Node) : Statement :=
  ⟨expression?, none, none, none⟩

/-- The statement with its sort keys, which were collected with the latest first. -/
def withOrder (read : Statement) (keys : List SortKey) : Statement :=
  { read with order? := some keys.reverse }

/-- The place after the first token of an operand. A group opens only while fewer groups are
open than the limit allows. -/
def afterOperandStart? (limit : Nat) (levels : Levels) : TokenKind → Option Place
  | .identifier name => some (.operator levels name)
  | .punctuation .openGroup =>
    if levels.depth + 1 ≤ limit then some (.operand levels.enter) else none
  | _ => none

def afterOperator? (levels : Levels) (name : String) : TokenKind → Option Place
  | .relation relation => some (.related levels name relation)
  | .keyword .like => some (.pattern levels name)
  | .keyword .contains => some (.element levels name)
  | .keyword .isIn => some (.listStart levels name)
  | _ => none

def afterOperandEnd? (levels : Levels) : TokenKind → Option Place
  | .keyword .and => some (.operand levels)
  | .keyword .or => some (.operand levels.nextAlternative)
  | .punctuation .closeGroup => levels.leave?.map .operandEnd
  | kind =>
    if levels.depth = 0 then clause? (ofExpression (some levels.inner.toNode)) kind else none

def afterSortKey? (read : Statement) (keys : List SortKey) : TokenKind → Option Place
  | .punctuation .comma => some (.sortField read keys)
  | kind => clauseAfterOrder? (withOrder read keys) kind

/-- The place after a token that follows the field of a sort key. Without a direction the key
ascends. -/
def afterSortField? (read : Statement) (keys : List SortKey) (field : String) :
    TokenKind → Option Place
  | .keyword .asc => some (.sortKeyEnd read (⟨field, .asc⟩ :: keys))
  | .keyword .desc => some (.sortKeyEnd read (⟨field, .desc⟩ :: keys))
  | kind => afterSortKey? read (⟨field, .asc⟩ :: keys) kind

/-- The place after one more token, if the token can stand there. -/
def next? (limit : Nat) (place : Place) (token : Token) : Option Place :=
  match place, token.kind with
  | .start, kind => (clause? (ofExpression none) kind).or (afterOperandStart? limit .empty kind)
  | .operand levels, kind => afterOperandStart? limit levels kind
  | .operator levels name, kind => afterOperator? levels name kind
  | .related levels name relation, _ =>
    token.literal?.map fun literal =>
      .operandEnd (levels.pushLeaf name (.relate relation literal))
  | .pattern levels name, .text literal =>
    some (.operandEnd (levels.pushLeaf name (.like literal.content token.column)))
  | .element levels name, .text literal =>
    some (.operandEnd (levels.pushLeaf name (.contains literal.content)))
  | .listStart levels name, .punctuation .openList => some (.listItem levels name [])
  | .listItem levels name items, _ =>
    token.literal?.map fun literal => .listNext levels name (literal :: items)
  | .listNext levels name items, .punctuation .comma => some (.listItem levels name items)
  | .listNext levels name items, .punctuation .closeList =>
    some (.operandEnd (levels.pushLeaf name (.isIn items.reverse)))
  | .operandEnd levels, kind => afterOperandEnd? levels kind
  | .sortedBy read, .keyword .sortedBy => some (.sortField read [])
  | .sortField read keys, .identifier field => some (.sortDirection read keys field)
  | .sortDirection read keys field, kind => afterSortField? read keys field kind
  | .sortKeyEnd read keys, kind => afterSortKey? read keys kind
  | .limit read, .integer numeral =>
    some (.limitEnd { read with limit? := some (numeral, token.column) })
  | .limitEnd read, .keyword .offset => some (.offset read)
  | .offset read, .text literal => some (.offsetEnd { read with offset? := some literal.content })
  | _, _ => none

/-- The statement that has been read, if it can end at a place. -/
def statement? : Place → Option Statement
  | .start => some (ofExpression none)
  | .operandEnd levels =>
    if levels.depth = 0 then some (ofExpression (some levels.inner.toNode)) else none
  | .sortDirection read keys field => some (withOrder read (⟨field, .asc⟩ :: keys))
  | .sortKeyEnd read keys => some (withOrder read keys)
  | .limitEnd read => some read
  | .offsetEnd read => some read
  | _ => none

/-- What is said when an operand does not begin with a name or a group. -/
def refuseOperand (limit : Nat) (found : Option TokenKind) : SyntaxError :=
  match found with
  | some (.punctuation .openGroup) => .nestedTooDeep limit
  | some kind => if kind.isLiteral then .bareValue kind else .unexpected .expression found
  | none => .unexpected .expression found

/-- What is said when a place has no use for what was found there. -/
def refuse (limit : Nat) (place : Place) (found : Option TokenKind) : SyntaxError :=
  match place with
  | .start => refuseOperand limit found
  | .operand _ => refuseOperand limit found
  | .operator _ name => .noOperator name found
  | .related .. => .unexpected .value found
  | .pattern .. => .unexpected .text found
  | .element .. => .unexpected .text found
  | .listStart .. => .unexpected (.punctuation .openList) found
  | .listItem .. => .unexpected .value found
  | .listNext .. => .unexpected (.punctuation .closeList) found
  | .operandEnd levels =>
    if levels.depth = 0 then .unexpected .endOfInput found
    else .unexpected (.punctuation .closeGroup) found
  | .sortedBy _ => .unexpected .sortedBy found
  | .sortField .. => .unexpected .field found
  | .sortDirection .. => .unexpected .endOfInput found
  | .sortKeyEnd .. => .unexpected .endOfInput found
  | .limit _ => .unexpected .integer found
  | .limitEnd _ => .unexpected .endOfInput found
  | .offset _ => .unexpected .text found
  | .offsetEnd _ => .unexpected .endOfInput found

/-- The place after a list of tokens, or the column of the first one that cannot stand where
it does. -/
def run (limit : Nat) (place : Place) : List Token → Except (Nat × SyntaxError) Place
  | [] => .ok place
  | token :: rest =>
    match place.next? limit token with
    | some place => run limit place rest
    | none => .error (token.column, place.refuse limit (some token.kind))

/-- A run that comes to its end has begun with a step. -/
theorem exists_next_of_run {limit : Nat} {place reached : Place} {token : Token} {rest : List Token}
    (ran : run limit place (token :: rest) = .ok reached) :
    ∃ following, place.next? limit token = some following ∧
      run limit following rest = .ok reached := by
  rw [run] at ran
  split at ran
  · rename_i following next
    exact ⟨following, next, ran⟩
  · cases ran

end Place

/-- Reads the tokens of a whole statement. The limit bounds the groups that are open at once,
and the last column is where the text ends. -/
def Statement.ofTokens (limit : Nat) (tokens : List Token) (lastColumn : Nat) :
    Except (Nat × SyntaxError) Statement := do
  let place ← Place.run limit .start tokens
  match place.statement? with
  | some statement => .ok statement
  | none => .error (lastColumn, place.refuse limit none)

end RecordQuery
