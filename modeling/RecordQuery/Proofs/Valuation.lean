import RecordQuery.Proofs.Building
import RecordQuery.Proofs.Comprehension

namespace RecordQuery

/-- The problem that a conversion ends with. -/
def problem? {α : Type} : Except Problem α → Option Problem
  | .error problem => some problem
  | .ok _ => none

section Conversions

variable {α β : Type} {problems others : List Problem}

theorem problem?_map (first : Except Problem α) (image : α → β) :
    problem? (first.map image) = problem? first := by
  cases first <;> rfl

/-- Of two conversions in a row the first one that fails gives the problem. -/
theorem problem?_bind {first : Except Problem α} {next : α → Except Problem β}
    (atFirst : problem? first = problems.head?)
    (atNext : ∀ value, problem? (next value) = others.head?) :
    problem? (first >>= next) = (problems ++ others).head? := by
  cases first with
  | error problem =>
    obtain ⟨rest, rfl⟩ := List.head?_eq_some_iff.mp atFirst.symm
    rfl
  | ok value =>
    obtain rfl := List.head?_eq_none_iff.mp atFirst.symm
    exact atNext value

end Conversions

/-! Every conversion of a literal that fails counts as a problem, also behind the first one. -/

def Literal.problems (literal : Literal) : List Problem :=
  (problem? literal.toScalar).toList

def ConditionTest.problems : ConditionTest → List Problem
  | .relate _ literal => literal.problems
  | .like pattern column => (problem? (ConditionTest.like pattern column).toTest).toList
  | .isIn literals => literals.flatMap Literal.problems
  | .contains _ => []

namespace Node

mutual

def problems : Node → List Problem
  | .leaf condition => condition.test.problems
  | .group content => content.problems
  | .chain _ operands => problemsOfAll operands

def problemsOfAll : List Node → List Problem
  | [] => []
  | operand :: rest => operand.problems ++ problemsOfAll rest

end

theorem problemsOfAll_eq_flatMap (nodes : List Node) : problemsOfAll nodes = nodes.flatMap problems := by
  induction nodes with
  | nil => rfl
  | cons node rest ih => rw [problemsOfAll, ih, List.flatMap_cons]

theorem problems_join (connective : Connective) (nodes : List Node) :
    (join connective nodes).problems = nodes.flatMap problems := by
  match nodes with
  | [node] => exact (List.append_nil _).symm
  | [] | first :: second :: rest => exact problemsOfAll_eq_flatMap _

end Node

def Level.problems (level : Level) : List Problem :=
  (level.alternatives.reverse ++ level.operands.reverse).flatMap Node.problems

def Levels.problems (levels : Levels) : List Problem :=
  levels.outer.reverse.flatMap Level.problems ++ levels.inner.problems

def Statement.problems (read : Statement) : List Problem :=
  read.expression?.elim [] Node.problems ++
    read.limit?.elim [] fun limit => (problem? (limit.1.toWord limit.2)).toList

section FirstProblem

theorem Literal.problem?_toScalars (literals : List Literal) :
    problem? (toScalars literals) = (literals.flatMap problems).head? := by
  induction literals with
  | nil => rfl
  | cons literal rest ih =>
    rw [toScalars, List.flatMap_cons]
    refine problem?_bind Option.head?_toList.symm fun value => ?_
    rw [← ih]
    cases toScalars rest <;> rfl

theorem ConditionTest.problem?_toTest (test : ConditionTest) :
    problem? test.toTest = test.problems.head? := by
  cases test with
  | relate relation literal =>
    rw [toTest, problem?_map]
    exact Option.head?_toList.symm
  | like pattern column => exact Option.head?_toList.symm
  | isIn literals =>
    rw [toTest, problem?_map]
    exact Literal.problem?_toScalars literals
  | contains text => rfl

mutual

/-- A filter is built unless a literal has no value, and the first such literal is reported. -/
theorem Node.problem?_toFilter (node : Node) : problem? node.toFilter = node.problems.head? := by
  match node with
  | .leaf condition =>
    rw [toFilter, problem?_map, Condition.toComparison, problem?_map, problems]
    exact condition.test.problem?_toTest
  | .group content =>
    rw [toFilter, problems]
    exact Node.problem?_toFilter content
  | .chain connective operands =>
    rw [toFilter, problem?_map, problems]
    exact Node.problem?_buildOperands connective operands

theorem Node.problem?_buildOperands (connective : Connective) (nodes : List Node) :
    problem? (buildOperands connective nodes) = (problemsOfAll nodes).head? := by
  match nodes with
  | [] =>
    rw [buildOperands]
    rfl
  | node :: rest =>
    rw [buildOperands_cons, problemsOfAll]
    refine problem?_bind (Node.problem?_toFilter node) fun filter => ?_
    rw [← Node.problem?_buildOperands connective rest]
    cases buildOperands connective rest <;> rfl

end

/-- A query is built unless a literal has no value. The limit is looked at after the expression. -/
theorem Query.problem?_ofStatement (read : Statement) :
    problem? (ofStatement read) = read.problems.head? := by
  have atFilter : problem? read.filter = (read.expression?.elim [] Node.problems).head? := by
    rw [Statement.filter]
    cases read.expression? with
    | none => rfl
    | some node => exact node.problem?_toFilter
  rw [ofStatement_eq_bind]
  refine problem?_bind atFilter fun filter => ?_
  rw [problem?_map, Statement.word?]
  rcases read.limit? with _ | ⟨numeral, column⟩
  · rfl
  · rw [problem?_map]
    exact (Option.head?_toList).symm

end FirstProblem

namespace TokenKind

def isLike : TokenKind → Bool
  | .keyword .like => true
  | _ => false

/-- The problem of a token, if it is a literal without a value. A string is a pattern directly
behind LIKE. -/
def problems (afterLike : Bool) (column : Nat) : TokenKind → List Problem
  | .integer numeral => (problem? (numeral.toWord column)).toList
  | .text literal =>
    if afterLike then (ConditionTest.like literal.content column).problems else []
  | _ => []

/-- Whether a token has a value if it is an integer, or a pattern directly behind LIKE. -/
def HasValue (afterLike : Bool) : TokenKind → Prop
  | .integer numeral => numeral.FitsWord
  | .text literal => afterLike = true → literal.IsPattern
  | _ => True

end TokenKind

theorem Numeral.problem?_toWord_eq_none_iff {numeral : Numeral} {column : Nat} :
    problem? (numeral.toWord column) = none ↔ numeral.FitsWord := by
  by_cases fits : numeral.FitsWord
  · simp [numeral.toWord_of_fitsWord fits, problem?, fits]
  · simp [numeral.toWord_of_not_fitsWord fits, problem?, fits]

theorem QuotedText.problems_like_eq_nil_iff {literal : QuotedText} {column : Nat} :
    (ConditionTest.like literal.content column).problems = [] ↔ literal.IsPattern := by
  unfold IsPattern
  simp only [ConditionTest.problems, ConditionTest.toTest, Like.Pattern.compile]
  cases Like.Regex.read (Like.regexText literal.content.toList) <;> simp [problem?, Except.map]

namespace TokenKind

variable {kind : TokenKind} {afterLike : Bool} {column : Nat}

theorem problems_eq_nil_iff : kind.problems afterLike column = [] ↔ kind.HasValue afterLike := by
  cases kind with
  | integer numeral =>
    rw [problems, HasValue, Option.toList_eq_nil_iff]
    exact Numeral.problem?_toWord_eq_none_iff
  | text literal =>
    cases afterLike with
    | false => simp [problems, HasValue]
    | true => simpa [problems, HasValue] using QuotedText.problems_like_eq_nil_iff
  | _ => exact iff_of_true rfl trivial

/-- A token without a value is reported where it stands. -/
theorem column_of_mem_problems {problem : Problem} (member : problem ∈ kind.problems afterLike column) :
    problem.column = column := by
  cases kind with
  | integer numeral =>
    rw [problems, Option.mem_toList, Numeral.toWord] at member
    split at member
    · cases member
    · cases member
      rfl
  | text literal =>
    cases afterLike with
    | false => cases member
    | true =>
      rw [problems, if_pos rfl, ConditionTest.problems, Option.mem_toList, ConditionTest.toTest] at member
      split at member
      · cases member
      · cases member
        rfl
  | _ => cases member

/-- Whether all tokens have a value where they stand. -/
def AllHaveValue (afterLike : Bool) : List TokenKind → Prop
  | [] => True
  | kind :: rest => kind.HasValue afterLike ∧ AllHaveValue kind.isLike rest

end TokenKind

namespace Token

/-- The problems of tokens in the order of the text. -/
def problems (afterLike : Bool) : List Token → List Problem
  | [] => []
  | token :: rest =>
    token.kind.problems afterLike token.column ++ problems token.kind.isLike rest

theorem problems_eq_nil_iff {afterLike : Bool} {tokens : List Token} :
    problems afterLike tokens = [] ↔ TokenKind.AllHaveValue afterLike (tokens.map kind) := by
  induction tokens generalizing afterLike with
  | nil => exact iff_of_true rfl trivial
  | cons token rest ih =>
    rw [problems, List.append_eq_nil_iff, TokenKind.problems_eq_nil_iff, ih]
    rfl

/-- Whether the token behind some tokens stands directly behind LIKE. The flag is for no tokens. -/
def behindLike (afterLike : Bool) (front : List Token) : Bool :=
  front.getLast?.elim afterLike fun last => last.kind.isLike

theorem behindLike_cons (afterLike : Bool) (token : Token) (front : List Token) :
    behindLike afterLike (token :: front) = behindLike token.kind.isLike front := by
  cases front with
  | nil => rfl
  | cons next front => rw [behindLike, List.getLast?_cons_cons, List.getLast?_cons, behindLike,
      List.getLast?_cons, Option.elim_some, Option.elim_some]

/-- The first problem is that of the leftmost token without a value. -/
theorem exists_of_head?_problems {afterLike : Bool} {tokens : List Token} {problem : Problem}
    (first : (problems afterLike tokens).head? = some problem) :
    ∃ front token back, tokens = front ++ token :: back ∧ problem.column = token.column ∧
      ¬token.kind.HasValue (behindLike afterLike front) ∧
      ∀ earlier other between, front = earlier ++ other :: between →
        other.kind.HasValue (behindLike afterLike earlier) := by
  induction tokens generalizing afterLike with
  | nil => cases first
  | cons token rest ih =>
    by_cases value : token.kind.HasValue afterLike
    · rw [problems, TokenKind.problems_eq_nil_iff.mpr value, List.nil_append] at first
      obtain ⟨front, bad, back, rfl, atColumn, noValue, before⟩ := ih first
      refine ⟨token :: front, bad, back, rfl, atColumn, ?_, fun earlier other between same => ?_⟩
      · rwa [behindLike_cons]
      · cases earlier with
        | nil =>
          obtain ⟨rfl, _⟩ := List.cons.inj same
          exact value
        | cons head earlier =>
          obtain ⟨rfl, later⟩ := List.cons.inj same
          rw [behindLike_cons]
          exact before earlier other between later
    · obtain ⟨own, more, atToken⟩ := List.exists_cons_of_ne_nil (mt TokenKind.problems_eq_nil_iff.mp value)
      rw [problems, atToken] at first
      cases first
      have inside : problem ∈ token.kind.problems afterLike token.column := by
        rw [atToken]
        exact List.mem_cons_self
      refine ⟨[], token, rest, rfl, TokenKind.column_of_mem_problems inside, value, ?_⟩
      intro earlier other between same
      exact absurd same.symm (List.append_ne_nil_of_right_ne_nil earlier (List.cons_ne_nil _ _))

end Token

namespace Level

variable {level : Level}

theorem problems_push (level : Level) (operand : Node) :
    (level.push operand).problems = level.problems ++ operand.problems := by
  simp only [problems, push, List.reverse_cons, List.flatMap_append, List.flatMap_singleton,
    List.append_assoc]

theorem problems_closed (level : Level) :
    level.closed.reverse.flatMap Node.problems = level.problems := by
  rw [closed, problems, List.reverse_cons, List.flatMap_append, List.flatMap_append,
    List.flatMap_singleton, Node.problems_join]

theorem problems_nextAlternative (level : Level) :
    level.nextAlternative.problems = level.problems := by
  rw [← problems_closed level, nextAlternative, problems, List.reverse_nil, List.append_nil]

theorem problems_toNode (level : Level) : level.toNode.problems = level.problems := by
  rw [toNode, Node.problems_join, problems_closed]

end Level

namespace Levels

theorem problems_push (levels : Levels) (operand : Node) :
    (levels.push operand).problems = levels.problems ++ operand.problems := by
  rw [push, problems, Level.problems_push, problems, List.append_assoc]

theorem problems_enter (levels : Levels) : levels.enter.problems = levels.problems := by
  have none : Level.empty.problems = [] := rfl
  rw [enter, problems, none, problems, List.reverse_cons, List.flatMap_append,
    List.flatMap_singleton, List.append_nil]

theorem problems_nextAlternative (levels : Levels) :
    levels.nextAlternative.problems = levels.problems := by
  rw [nextAlternative, problems, Level.problems_nextAlternative, problems]

theorem problems_leave {levels left : Levels} (left? : levels.leave? = some left) :
    left.problems = levels.problems := by
  obtain ⟨inner, outer⟩ := levels
  unfold leave? at left?
  split at left?
  · cases left?
  · rename_i level others atOuter
    cases left?
    obtain rfl : outer = level :: others := atOuter
    rw [problems, Level.problems_push, Node.problems, Level.problems_toNode, problems,
      List.reverse_cons, List.flatMap_append, List.flatMap_singleton, List.append_assoc]

theorem problems_of_outermost {levels : Levels} (outermost : levels.depth = 0) :
    levels.problems = levels.inner.problems := by
  rw [problems, List.length_eq_zero_iff.mp outermost]
  rfl

end Levels

namespace Place

variable {limit : Nat} {place reached : Place} {levels : Levels} {read : Statement}
  {keys : List SortKey} {kind : TokenKind} {problems : List Problem}

def awaitsPattern : Place → Bool
  | .pattern .. => true
  | _ => false

/-- What is still to be converted at a place comes to these problems. -/
def Owes (problems : List Problem) : Place → Prop
  | .start => problems = []
  | .operand levels => levels.problems = problems
  | .operator levels _ => levels.problems = problems
  | .related levels _ _ => levels.problems = problems
  | .pattern levels _ => levels.problems = problems
  | .element levels _ => levels.problems = problems
  | .listStart levels _ => levels.problems = problems
  | .listItem levels _ items => levels.problems ++ items.reverse.flatMap Literal.problems = problems
  | .listNext levels _ items => levels.problems ++ items.reverse.flatMap Literal.problems = problems
  | .operandEnd levels => levels.problems = problems
  | .sortedBy read => read.limit? = none ∧ read.problems = problems
  | .sortField read _ => read.limit? = none ∧ read.problems = problems
  | .sortDirection read _ _ => read.limit? = none ∧ read.problems = problems
  | .sortKeyEnd read _ => read.limit? = none ∧ read.problems = problems
  | .limit read => read.limit? = none ∧ read.problems = problems
  | .limitEnd read => read.problems = problems
  | .offset read => read.problems = problems
  | .offsetEnd read => read.problems = problems

/-- What reading a token adds to a place: its own problems, and whether a pattern comes next. -/
structure Adds (problems : List Problem) (afterLike : Bool) (token : Token) (reached : Place) :
    Prop where
  owes : reached.Owes (problems ++ token.kind.problems afterLike token.column)
  awaitsPattern : reached.awaitsPattern = token.kind.isLike

variable {afterLike : Bool} {column : Nat}

theorem adds_plain (plain : kind.problems afterLike column = []) (owes : reached.Owes problems)
    (same : reached.awaitsPattern = kind.isLike) : Adds problems afterLike ⟨kind, column⟩ reached := by
  refine ⟨?_, same⟩
  rwa [plain, List.append_nil]

theorem adds_of_clause? (unlimited : read.limit? = none) (owed : read.problems = problems)
    (next : clause? read kind = some reached) : Adds problems afterLike ⟨kind, column⟩ reached := by
  unfold clause? at next
  split at next
  · cases next
    exact adds_plain rfl ⟨unlimited, owed⟩ rfl
  · cases next
    exact adds_plain rfl ⟨unlimited, owed⟩ rfl
  · cases next
    exact adds_plain rfl owed rfl
  · cases next

theorem adds_of_clauseAfterOrder? (unlimited : read.limit? = none) (owed : read.problems = problems)
    (next : clauseAfterOrder? read kind = some reached) :
    Adds problems afterLike ⟨kind, column⟩ reached := by
  unfold clauseAfterOrder? at next
  split at next
  · cases next
    exact adds_plain rfl ⟨unlimited, owed⟩ rfl
  · cases next
    exact adds_plain rfl owed rfl
  · cases next

theorem adds_of_afterOperandStart? (owed : levels.problems = problems)
    (next : afterOperandStart? limit levels kind = some reached) :
    Adds problems afterLike ⟨kind, column⟩ reached := by
  unfold afterOperandStart? at next
  split at next
  · cases next
    exact adds_plain rfl owed rfl
  · split at next
    · cases next
      exact adds_plain rfl (levels.problems_enter.trans owed) rfl
    · cases next
  · cases next

theorem adds_of_afterOperator? {name : String} (owed : levels.problems = problems)
    (next : afterOperator? levels name kind = some reached) :
    Adds problems afterLike ⟨kind, column⟩ reached := by
  unfold afterOperator? at next
  split at next
  case h_5 => cases next
  all_goals
    cases next
    exact adds_plain rfl owed rfl

theorem adds_of_afterOperandEnd? (owed : levels.problems = problems)
    (next : afterOperandEnd? levels kind = some reached) :
    Adds problems afterLike ⟨kind, column⟩ reached := by
  unfold afterOperandEnd? at next
  split at next
  · cases next
    exact adds_plain rfl owed rfl
  · cases next
    exact adds_plain rfl (levels.problems_nextAlternative.trans owed) rfl
  · obtain ⟨left, left?, rfl⟩ := Option.map_eq_some_iff.mp next
    exact adds_plain rfl ((Levels.problems_leave left?).trans owed) rfl
  · split at next
    · rename_i outermost
      have whole : (ofExpression (some levels.inner.toNode)).problems = problems := by
        rw [← owed, Levels.problems_of_outermost outermost, ← Level.problems_toNode]
        exact List.append_nil _
      exact adds_of_clause? rfl whole next
    · cases next

theorem adds_of_afterSortKey? (unlimited : read.limit? = none) (owed : read.problems = problems)
    (next : afterSortKey? read keys kind = some reached) :
    Adds problems afterLike ⟨kind, column⟩ reached := by
  unfold afterSortKey? at next
  split at next
  · cases next
    exact adds_plain rfl ⟨unlimited, owed⟩ rfl
  · have sameLimit : (withOrder read keys).limit? = none := unlimited
    exact adds_of_clauseAfterOrder? sameLimit owed next

theorem adds_of_afterSortField? {field : String} (unlimited : read.limit? = none)
    (owed : read.problems = problems) (next : afterSortField? read keys field kind = some reached) :
    Adds problems afterLike ⟨kind, column⟩ reached := by
  unfold afterSortField? at next
  split at next
  · cases next
    exact adds_plain rfl ⟨unlimited, owed⟩ rfl
  · cases next
    exact adds_plain rfl ⟨unlimited, owed⟩ rfl
  · exact adds_of_afterSortKey? unlimited owed next

theorem problems_of_literal? {token : Token} {literal : Literal}
    (isLiteral : token.literal? = some literal) :
    literal.problems = token.kind.problems false token.column ∧ token.kind.isLike = false := by
  unfold Token.literal? at isLiteral
  split at isLiteral
  · rename_i atKind
    cases isLiteral
    rw [atKind]
    exact ⟨rfl, rfl⟩
  · rename_i numeral atKind
    cases isLiteral
    rw [atKind, Literal.problems, Literal.toScalar, problem?_map]
    exact ⟨rfl, rfl⟩
  · rename_i atKind
    cases isLiteral
    rw [atKind]
    exact ⟨rfl, rfl⟩
  · cases isLiteral

/-- Every token that can stand somewhere adds its problems behind those of the tokens before. -/
theorem Owes.next {token : Token} (owes : place.Owes problems)
    (next : place.next? limit token = some reached) :
    Adds problems place.awaitsPattern token reached := by
  obtain ⟨kind, column⟩ := token
  unfold next? at next
  split at next
  case h_1 =>
    obtain rfl : problems = [] := owes
    rcases Option.or_eq_some_iff.mp next with clause | ⟨_, operand⟩
    · exact adds_of_clause? rfl rfl clause
    · exact adds_of_afterOperandStart? rfl operand
  case h_2 => exact adds_of_afterOperandStart? owes next
  case h_3 => exact adds_of_afterOperator? owes next
  case h_4 levels name relation =>
    obtain ⟨literal, isLiteral, rfl⟩ := Option.map_eq_some_iff.mp next
    obtain ⟨same, noLike⟩ := problems_of_literal? isLiteral
    obtain rfl : levels.problems = problems := owes
    refine ⟨(Levels.problems_push _ _).trans ?_, noLike.symm⟩
    exact congrArg (levels.problems ++ ·) same
  case h_5 levels name literal atKind =>
    cases next
    obtain rfl : levels.problems = problems := owes
    obtain rfl : kind = .text literal := atKind
    exact ⟨Levels.problems_push _ _, rfl⟩
  case h_6 levels name literal atKind =>
    cases next
    obtain rfl : levels.problems = problems := owes
    obtain rfl : kind = .text literal := atKind
    exact ⟨Levels.problems_push _ _, rfl⟩
  case h_7 levels name atKind =>
    cases next
    obtain rfl : kind = .punctuation .openList := atKind
    exact adds_plain rfl ((List.append_nil _).trans owes) rfl
  case h_8 levels name items =>
    obtain ⟨literal, isLiteral, rfl⟩ := Option.map_eq_some_iff.mp next
    obtain ⟨same, noLike⟩ := problems_of_literal? isLiteral
    refine ⟨?_, noLike.symm⟩
    rw [Owes, List.reverse_cons, List.flatMap_append, List.flatMap_singleton, same, ← List.append_assoc]
    exact congrArg (· ++ _) owes
  case h_9 atKind =>
    cases next
    obtain rfl : kind = .punctuation .comma := atKind
    exact adds_plain rfl owes rfl
  case h_10 atKind =>
    cases next
    obtain rfl : kind = .punctuation .closeList := atKind
    exact adds_plain rfl ((Levels.problems_push _ _).trans owes) rfl
  case h_11 => exact adds_of_afterOperandEnd? owes next
  case h_12 atKind =>
    cases next
    obtain rfl : kind = .keyword .sortedBy := atKind
    exact adds_plain rfl owes rfl
  case h_13 field atKind =>
    cases next
    obtain rfl : kind = .identifier field := atKind
    exact adds_plain rfl owes rfl
  case h_14 => exact adds_of_afterSortField? owes.1 owes.2 next
  case h_15 => exact adds_of_afterSortKey? owes.1 owes.2 next
  case h_16 read numeral atKind =>
    cases next
    obtain rfl : kind = .integer numeral := atKind
    obtain ⟨unlimited, rfl⟩ := owes
    refine ⟨?_, rfl⟩
    rw [Statement.problems, unlimited]
    exact congrArg (· ++ _) (List.append_nil _).symm
  case h_17 atKind =>
    cases next
    obtain rfl : kind = .keyword .offset := atKind
    exact adds_plain rfl owes rfl
  case h_18 literal atKind =>
    cases next
    obtain rfl : kind = .text literal := atKind
    exact adds_plain rfl owes rfl
  case h_19 => cases next

/-- The problems at the end of a run are those of all its tokens. -/
theorem Owes.run {tokens : List Token} (owes : place.Owes problems)
    (ran : run limit place tokens = .ok reached) :
    reached.Owes (problems ++ Token.problems place.awaitsPattern tokens) := by
  induction tokens generalizing place problems with
  | nil =>
    cases ran
    rwa [Token.problems, List.append_nil]
  | cons token rest ih =>
    obtain ⟨following, next, ran⟩ := exists_next_of_run ran
    obtain ⟨owed, sameFlag⟩ := owes.next next
    rw [Token.problems, ← List.append_assoc, ← sameFlag]
    exact ih owed ran

theorem Owes.statement (owes : place.Owes problems) (atEnd : place.statement? = some read) :
    read.problems = problems := by
  unfold statement? at atEnd
  split at atEnd
  · cases atEnd
    exact owes.symm
  · split at atEnd
    · rename_i levels outermost
      cases atEnd
      rw [← show levels.problems = problems from owes, Levels.problems_of_outermost outermost,
        ← Level.problems_toNode]
      exact List.append_nil _
    · cases atEnd
  · cases atEnd
    exact owes.2
  · cases atEnd
    exact owes.2
  · cases atEnd
    exact owes
  · cases atEnd
    exact owes
  · cases atEnd

end Place

end RecordQuery
