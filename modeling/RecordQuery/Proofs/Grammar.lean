import RecordQuery.Proofs.Rendering
import RecordQuery.Proofs.Verdict

/-!
The language of queries as its grammar gives it, apart from the reader.

    query        := expression? orderClause? limitClause? offsetClause?
    expression   := ident LIKE string
                  | ident IN '[' value (',' value)* ']'
                  | ident CONTAINS string
                  | ident compareOp value
                  | '(' expression ')'
                  | expression AND expression
                  | expression OR expression
    orderClause  := ORDER BY ident (ASC|DESC)? (',' ident (ASC|DESC)?)*
    limitClause  := LIMIT integer
    offsetClause := OFFSET string

A `Phrase` derives an expression and a `Sentence` a query. The grammar does not say how a row of
operands is grouped, so one row has many derivations.
-/

namespace RecordQuery

/-- One part, and more parts with a comma before each of them. -/
structure Series (α : Type) where
  first : α
  rest : List α

inductive WrittenLiteral
  | boolean (value : Bool)
  | integer (numeral : Numeral)
  | text (literal : QuotedText)

inductive WrittenTest
  | relate (relation : Relation) (literal : WrittenLiteral)
  | like (pattern : QuotedText)
  | isIn (literals : Series WrittenLiteral)
  | contains (text : QuotedText)

inductive Phrase
  | condition (name : String) (test : WrittenTest)
  | group (content : Phrase)
  | pair (connective : Connective) (left right : Phrase)

structure WrittenKey where
  field : String
  direction? : Option Direction

structure Sentence where
  phrase? : Option Phrase
  order? : Option (Series WrittenKey)
  limit? : Option Numeral
  offset? : Option QuotedText

/-! ### The tokens of a derivation -/

namespace Series

variable {α : Type}

def toList (parts : Series α) : List α :=
  parts.first :: parts.rest

def kindsOfRest (part : α → List TokenKind) (rest : List α) : List TokenKind :=
  rest.flatMap fun next => .punctuation .comma :: part next

def kinds (part : α → List TokenKind) (parts : Series α) : List TokenKind :=
  part parts.first ++ kindsOfRest part parts.rest

end Series

def WrittenLiteral.kind : WrittenLiteral → TokenKind
  | .boolean value => .boolean value
  | .integer numeral => .integer numeral
  | .text literal => .text literal

def WrittenTest.kinds : WrittenTest → List TokenKind
  | .relate relation literal => [.relation relation, literal.kind]
  | .like pattern => [.keyword .like, .text pattern]
  | .isIn literals =>
    .keyword .isIn :: .punctuation .openList ::
      (literals.kinds (fun literal => [literal.kind]) ++ [.punctuation .closeList])
  | .contains text => [.keyword .contains, .text text]

def Phrase.kinds : Phrase → List TokenKind
  | .condition name test => .identifier name :: test.kinds
  | .group content => .punctuation .openGroup :: (content.kinds ++ [.punctuation .closeGroup])
  | .pair connective left right => left.kinds ++ .keyword connective.keyword :: right.kinds

def WrittenKey.directionKinds (direction? : Option Direction) : List TokenKind :=
  direction?.elim [] fun direction => [.keyword direction.keyword]

def WrittenKey.kinds (key : WrittenKey) : List TokenKind :=
  .identifier key.field :: directionKinds key.direction?

namespace Sentence

def orderKinds (order? : Option (Series WrittenKey)) : List TokenKind :=
  order?.elim [] fun keys => .keyword .order :: .keyword .sortedBy :: keys.kinds WrittenKey.kinds

def limitKinds (limit? : Option Numeral) : List TokenKind :=
  limit?.elim [] fun numeral => [.keyword .limit, .integer numeral]

def offsetKinds (offset? : Option QuotedText) : List TokenKind :=
  offset?.elim [] fun text => [.keyword .offset, .text text]

def clauseKinds (sentence : Sentence) : List TokenKind :=
  orderKinds sentence.order? ++ (limitKinds sentence.limit? ++ offsetKinds sentence.offset?)

def kinds (sentence : Sentence) : List TokenKind :=
  sentence.phrase?.elim [] Phrase.kinds ++ sentence.clauseKinds

end Sentence

/-! ### What the grammar leaves to conditions -/

/-- How many pairs of parentheses stand around a token at most. -/
def Phrase.nesting : Phrase → Nat
  | .condition .. => 0
  | .group content => content.nesting + 1
  | .pair _ left right => max left.nesting right.nesting

def Sentence.nesting (sentence : Sentence) : Nat :=
  sentence.phrase?.elim 0 Phrase.nesting

def WrittenLiteral.numerals : WrittenLiteral → List Numeral
  | .integer numeral => [numeral]
  | _ => []

def WrittenTest.numerals : WrittenTest → List Numeral
  | .relate _ literal => literal.numerals
  | .isIn literals => literals.toList.flatMap WrittenLiteral.numerals
  | _ => []

def Phrase.numerals : Phrase → List Numeral
  | .condition _ test => test.numerals
  | .group content => content.numerals
  | .pair _ left right => left.numerals ++ right.numerals

/-- The integers of a query: those that are values, alone or in a list, and the limit. -/
def Sentence.numerals (sentence : Sentence) : List Numeral :=
  sentence.phrase?.elim [] Phrase.numerals ++ sentence.limit?.toList

def WrittenTest.patterns : WrittenTest → List QuotedText
  | .like pattern => [pattern]
  | _ => []

def Phrase.patterns : Phrase → List QuotedText
  | .condition _ test => test.patterns
  | .group content => content.patterns
  | .pair _ left right => left.patterns ++ right.patterns

def Sentence.patterns (sentence : Sentence) : List QuotedText :=
  sentence.phrase?.elim [] Phrase.patterns

/-- Whether a numeral denotes a number that a machine word can hold. -/
def Numeral.FitsWord (numeral : Numeral) : Prop :=
  -9223372036854775808 ≤ numeral.value ∧ numeral.value ≤ 9223372036854775807

instance (numeral : Numeral) : Decidable numeral.FitsWord :=
  inferInstanceAs (Decidable (_ ∧ _))

/-- Whether the regular expression that a pattern stands for can be read. -/
def QuotedText.IsPattern (pattern : QuotedText) : Prop :=
  ∃ regex, Like.Regex.read (Like.regexText pattern.content.toList) = .ok regex

/-! ### The plain reading of a derivation -/

def Phrase.isDisjunction : Phrase → Bool
  | .pair .or _ _ => true
  | _ => false

/-- Whether operands are grouped so that AND binds tighter than OR: a disjunction is an operand of
a conjunction only inside parentheses. -/
def Phrase.ByPrecedence : Phrase → Prop
  | .condition .. => True
  | .group content => content.ByPrecedence
  | .pair connective left right =>
    (connective = .and → left.isDisjunction = false ∧ right.isDisjunction = false) ∧
      left.ByPrecedence ∧ right.ByPrecedence

def Sentence.ByPrecedence (sentence : Sentence) : Prop :=
  ∀ phrase, sentence.phrase? = some phrase → phrase.ByPrecedence

def WrittenLiteral.scalar? : WrittenLiteral → Option Scalar
  | .boolean value => some (.bool value)
  | .integer numeral =>
    if numeral.FitsWord then some (.int (Int64.ofInt numeral.value)) else none
  | .text literal => some (.text literal.content)

def WrittenTest.test? : WrittenTest → Option Test
  | .relate relation literal => literal.scalar?.map (.relate relation)
  | .like pattern => (Like.Pattern.compile pattern.content).toOption.map .like
  | .isIn literals => (literals.toList.mapM WrittenLiteral.scalar?).map .isIn
  | .contains text => some (.contains text.content)

namespace Phrase

/-- The verdict of an expression if all its literals have a value. The second operand of a pair is
asked after the first, and only if the first leaves the decision to it. -/
def evaluate? (mode : Mode) (record : Record) : Phrase → Option Verdict
  | .condition name test =>
    test.test?.map fun test => Comparison.evaluate ⟨pathOfName name, test⟩ mode record
  | .group content => content.evaluate? mode record
  | .pair connective left right => do
    let first ← left.evaluate? mode record
    let second ← right.evaluate? mode record
    return first.followedBy connective second

/-- The identifiers of the conditions in the order of the text. -/
def names : Phrase → List String
  | .condition name _ => [name]
  | .group content => content.names
  | .pair _ left right => left.names ++ right.names

end Phrase

end RecordQuery
