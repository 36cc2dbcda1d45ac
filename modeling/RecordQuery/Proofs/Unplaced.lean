import RecordQuery.Proofs.Accepted

namespace RecordQuery

/-! Columns are kept for errors only. What is read from tokens whose columns are forgotten is what
is read from the tokens, with its columns forgotten. -/

section Forgetting

def Token.unplaced (token : Token) : Token :=
  ⟨token.kind, 0⟩

def Literal.unplaced : Literal → Literal
  | .integer numeral _ => .integer numeral 0
  | literal => literal

def ConditionTest.unplaced : ConditionTest → ConditionTest
  | .relate relation literal => .relate relation literal.unplaced
  | .like pattern _ => .like pattern 0
  | .isIn literals => .isIn (literals.map Literal.unplaced)
  | .contains text => .contains text

def Condition.unplaced (condition : Condition) : Condition :=
  ⟨condition.name, condition.test.unplaced⟩

mutual

def Node.unplaced : Node → Node
  | .leaf condition => .leaf condition.unplaced
  | .group content => .group content.unplaced
  | .chain connective operands => .chain connective (Node.unplacedAll operands)

def Node.unplacedAll : List Node → List Node
  | [] => []
  | operand :: rest => operand.unplaced :: Node.unplacedAll rest

end

def Level.unplaced (level : Level) : Level :=
  ⟨level.alternatives.map Node.unplaced, level.operands.map Node.unplaced⟩

def Levels.unplaced (levels : Levels) : Levels :=
  ⟨levels.inner.unplaced, levels.outer.map Level.unplaced⟩

def Statement.unplaced (read : Statement) : Statement :=
  { read with
    expression? := read.expression?.map Node.unplaced
    limit? := read.limit?.map fun limit => (limit.1, 0) }

def Place.unplaced : Place → Place
  | .start => .start
  | .operand levels => .operand levels.unplaced
  | .operator levels name => .operator levels.unplaced name
  | .related levels name relation => .related levels.unplaced name relation
  | .pattern levels name => .pattern levels.unplaced name
  | .element levels name => .element levels.unplaced name
  | .listStart levels name => .listStart levels.unplaced name
  | .listItem levels name items => .listItem levels.unplaced name (items.map Literal.unplaced)
  | .listNext levels name items => .listNext levels.unplaced name (items.map Literal.unplaced)
  | .operandEnd levels => .operandEnd levels.unplaced
  | .sortedBy read => .sortedBy read.unplaced
  | .sortField read keys => .sortField read.unplaced keys
  | .sortDirection read keys field => .sortDirection read.unplaced keys field
  | .sortKeyEnd read keys => .sortKeyEnd read.unplaced keys
  | .limit read => .limit read.unplaced
  | .limitEnd read => .limitEnd read.unplaced
  | .offset read => .offset read.unplaced
  | .offsetEnd read => .offsetEnd read.unplaced

end Forgetting

theorem Node.unplacedAll_eq_map (nodes : List Node) : unplacedAll nodes = nodes.map unplaced := by
  induction nodes with
  | nil => rfl
  | cons node rest ih => rw [unplacedAll, ih, List.map_cons]

theorem Node.unplaced_join (connective : Connective) (nodes : List Node) :
    (join connective nodes).unplaced = join connective (nodes.map unplaced) := by
  match nodes with
  | [node] => rfl
  | [] => rfl
  | first :: second :: rest =>
    exact congrArg (chain connective) (unplacedAll_eq_map (first :: second :: rest))

namespace Level

theorem unplaced_push (level : Level) (operand : Node) :
    (level.push operand).unplaced = level.unplaced.push operand.unplaced :=
  rfl

theorem unplaced_closed (level : Level) :
    level.closed.map Node.unplaced = level.unplaced.closed := by
  rw [closed, List.map_cons, Node.unplaced_join, List.map_reverse]
  rfl

theorem unplaced_nextAlternative (level : Level) :
    level.nextAlternative.unplaced = level.unplaced.nextAlternative := by
  rw [nextAlternative, unplaced, unplaced_closed]
  rfl

theorem unplaced_toNode (level : Level) : level.toNode.unplaced = level.unplaced.toNode := by
  rw [toNode, Node.unplaced_join, List.map_reverse, unplaced_closed, toNode]

end Level

namespace Levels

theorem depth_unplaced (levels : Levels) : levels.unplaced.depth = levels.depth :=
  List.length_map _

theorem unplaced_nextAlternative (levels : Levels) :
    levels.nextAlternative.unplaced = levels.unplaced.nextAlternative := by
  rw [nextAlternative, unplaced, Level.unplaced_nextAlternative]
  rfl

theorem unplaced_leave? (levels : Levels) :
    levels.unplaced.leave? = levels.leave?.map unplaced := by
  obtain ⟨inner, outer⟩ := levels
  cases outer with
  | nil => rfl
  | cons level outer =>
    have group : (Node.group inner.toNode).unplaced = .group inner.unplaced.toNode :=
      congrArg Node.group inner.unplaced_toNode
    simp only [leave?, unplaced, List.map_cons, Option.map_some, Level.unplaced_push, group]

end Levels

theorem Token.literal?_unplaced (token : Token) :
    token.unplaced.literal? = token.literal?.map Literal.unplaced := by
  obtain ⟨kind, column⟩ := token
  cases kind <;> rfl

namespace Place

variable (limit : Nat) (levels : Levels) (read : Statement) (keys : List SortKey)
  (kind : TokenKind)

theorem clause?_unplaced : clause? read.unplaced kind = (clause? read kind).map unplaced := by
  unfold clause?
  split <;> rfl

theorem clauseAfterOrder?_unplaced :
    clauseAfterOrder? read.unplaced kind = (clauseAfterOrder? read kind).map unplaced := by
  unfold clauseAfterOrder?
  split <;> rfl

theorem unplaced_ofExpression (expression? : Option Node) :
    (ofExpression expression?).unplaced = ofExpression (expression?.map Node.unplaced) :=
  rfl

theorem unplaced_withOrder :
    (withOrder read keys).unplaced = withOrder read.unplaced keys :=
  rfl

theorem afterOperandStart?_unplaced :
    afterOperandStart? limit levels.unplaced kind =
      (afterOperandStart? limit levels kind).map unplaced := by
  unfold afterOperandStart?
  rw [levels.depth_unplaced]
  split
  · rfl
  · split <;> rfl
  · rfl

theorem afterOperator?_unplaced (name : String) :
    afterOperator? levels.unplaced name kind =
      (afterOperator? levels name kind).map unplaced := by
  unfold afterOperator?
  split <;> rfl

theorem afterOperandEnd?_unplaced :
    afterOperandEnd? levels.unplaced kind = (afterOperandEnd? levels kind).map unplaced := by
  unfold afterOperandEnd?
  split
  · rfl
  · rw [Option.map_some, unplaced, Levels.unplaced_nextAlternative]
  · rw [Levels.unplaced_leave?, Option.map_map, Option.map_map]
    rfl
  · rw [levels.depth_unplaced]
    split
    · rw [← clause?_unplaced, unplaced_ofExpression, Option.map_some, Level.unplaced_toNode]
      rfl
    · rfl

theorem afterSortKey?_unplaced :
    afterSortKey? read.unplaced keys kind = (afterSortKey? read keys kind).map unplaced := by
  unfold afterSortKey?
  split
  · rfl
  · rw [← clauseAfterOrder?_unplaced, unplaced_withOrder]

theorem afterSortField?_unplaced (field : String) :
    afterSortField? read.unplaced keys field kind =
      (afterSortField? read keys field kind).map unplaced := by
  unfold afterSortField?
  split
  · rfl
  · rfl
  · exact afterSortKey?_unplaced read _ kind

/-- A step does not look at columns. -/
theorem next?_unplaced (place : Place) (token : Token) :
    place.unplaced.next? limit token.unplaced = (place.next? limit token).map unplaced := by
  have atLiteral := token.literal?_unplaced
  obtain ⟨kind, column⟩ := token
  cases place with
  | start =>
    have clause := clause?_unplaced (ofExpression none) kind
    have operand := afterOperandStart?_unplaced limit .empty kind
    change (clause? (ofExpression none).unplaced kind).or
      (afterOperandStart? limit Levels.empty.unplaced kind) = _
    rw [clause, operand, ← Option.map_or]
    rfl
  | operand levels => exact afterOperandStart?_unplaced limit levels kind
  | operator levels name => exact afterOperator?_unplaced levels kind name
  | operandEnd levels => exact afterOperandEnd?_unplaced levels kind
  | sortDirection read keys field => exact afterSortField?_unplaced read keys kind field
  | sortKeyEnd read keys => exact afterSortKey?_unplaced read keys kind
  | related levels name relation =>
    simp only [next?, unplaced, atLiteral, Option.map_map]
    rfl
  | listItem levels name items =>
    simp only [next?, unplaced, atLiteral, Option.map_map]
    rfl
  | listNext levels name items =>
    cases kind with
    | punctuation sign =>
      cases sign with
      | closeList =>
        have reversed := List.map_reverse (f := Literal.unplaced) (l := items)
        change some (operandEnd (levels.unplaced.pushLeaf name (.isIn (items.map _).reverse))) = _
        rw [← reversed]
        rfl
      | openGroup | closeGroup | openList | comma => rfl
    | identifier | integer | text | boolean | keyword | relation => rfl
  | pattern | element | listStart | sortedBy | sortField | limit | limitEnd | offset | offsetEnd =>
    cases kind with
    | punctuation sign => cases sign <;> rfl
    | keyword word => cases word <;> rfl
    | identifier | integer | text | boolean | relation => rfl

/-- A run reaches the same place from tokens without columns, or none as well. -/
theorem run_unplaced (place : Place) (tokens : List Token) :
    (run limit place.unplaced (tokens.map Token.unplaced)).toOption =
      (run limit place tokens).toOption.map unplaced := by
  induction tokens generalizing place with
  | nil => rfl
  | cons token rest ih =>
    rw [List.map_cons, run, run, next?_unplaced limit]
    cases place.next? limit token with
    | none => rfl
    | some following => exact ih following

theorem statement?_unplaced (place : Place) :
    place.unplaced.statement? = place.statement?.map Statement.unplaced := by
  cases place with
  | operandEnd levels =>
    simp only [unplaced, statement?, levels.depth_unplaced]
    split
    · rw [Option.map_some]
      exact congrArg (fun node => some (ofExpression (some node))) levels.inner.unplaced_toNode.symm
    · rfl
  | _ => rfl

end Place

/-! ### The values of what is read -/

section Values

variable {ε α β : Type}

theorem toOption_eq_some_iff {result : Except ε α} {value : α} :
    result.toOption = some value ↔ result = .ok value := by
  cases result <;> simp [Except.toOption]

theorem toOption_map (first : Except ε α) (image : α → β) :
    (first.map image).toOption = first.toOption.map image := by
  cases first <;> rfl

theorem toOption_bind (first : Except ε α) (next : α → Except ε β) :
    (first >>= next).toOption = first.toOption.bind fun value => (next value).toOption := by
  cases first <;> rfl

theorem Numeral.toOption_toWord (numeral : Numeral) (column other : Nat) :
    (numeral.toWord column).toOption = (numeral.toWord other).toOption := by
  unfold toWord
  split <;> rfl

theorem Literal.toScalar_unplaced (literal : Literal) :
    literal.unplaced.toScalar.toOption = literal.toScalar.toOption := by
  cases literal with
  | integer numeral column =>
    rw [unplaced, toScalar, toScalar, toOption_map, toOption_map, numeral.toOption_toWord 0 column]
  | boolean | text => rfl

theorem Literal.toScalars_unplaced (literals : List Literal) :
    (toScalars (literals.map unplaced)).toOption = (toScalars literals).toOption := by
  induction literals with
  | nil => rfl
  | cons literal rest ih =>
    simp only [List.map_cons, toScalars, toOption_bind, toScalar_unplaced, ih]

theorem ConditionTest.toTest_unplaced (test : ConditionTest) :
    test.unplaced.toTest.toOption = test.toTest.toOption := by
  cases test with
  | relate relation literal =>
    rw [unplaced, toTest, toTest, toOption_map, toOption_map, literal.toScalar_unplaced]
  | like pattern column =>
    rw [unplaced, toTest, toTest]
    split <;> rfl
  | isIn literals =>
    rw [unplaced, toTest, toTest, toOption_map, toOption_map, Literal.toScalars_unplaced]
  | contains text => rfl

mutual

/-- A filter is built from a node without columns if it is built from the node. -/
theorem Node.toFilter_unplaced (node : Node) :
    node.unplaced.toFilter.toOption = node.toFilter.toOption := by
  match node with
  | .leaf condition =>
    simp only [unplaced, toFilter, Condition.toComparison, Condition.unplaced, toOption_map,
      ConditionTest.toTest_unplaced]
  | .group content =>
    rw [unplaced, toFilter, toFilter]
    exact Node.toFilter_unplaced content
  | .chain connective operands =>
    rw [unplaced, toFilter, toFilter, toOption_map, toOption_map,
      Node.buildOperands_unplaced connective operands]

theorem Node.buildOperands_unplaced (connective : Connective) (nodes : List Node) :
    (buildOperands connective (unplacedAll nodes)).toOption =
      (buildOperands connective nodes).toOption := by
  match nodes with
  | [] => rfl
  | node :: rest =>
    simp only [unplacedAll, buildOperands_cons, toOption_bind, Node.toFilter_unplaced node,
      Node.buildOperands_unplaced connective rest]

end

theorem Query.ofStatement_unplaced (read : Statement) :
    (ofStatement read.unplaced).toOption = (ofStatement read).toOption := by
  have filter : read.unplaced.filter.toOption = read.filter.toOption := by
    obtain ⟨expression?, order?, limit?, offset?⟩ := read
    cases expression? with
    | none => rfl
    | some node => exact node.toFilter_unplaced
  have word : read.unplaced.word?.toOption = read.word?.toOption := by
    obtain ⟨expression?, order?, limit?, offset?⟩ := read
    rcases limit? with _ | ⟨numeral, column⟩
    · rfl
    · simp only [Statement.word?, Statement.unplaced, Option.map_some, toOption_map,
        numeral.toOption_toWord 0 column]
  have bound (statement : Statement) : (ofStatement statement).toOption =
      statement.filter.toOption.bind fun filter =>
        statement.word?.toOption.map fun limit? =>
          ⟨filter, statement.order?, limit?, statement.offset?⟩ := by
    rw [ofStatement_eq_bind]
    cases statement.filter <;> cases statement.word? <;> rfl
  rw [bound, bound, filter, word]
  rfl

end Values

namespace Query

/-- The query that tokens are read as, if there is one. -/
def ofTokens? (limit : Nat) (tokens : List Token) : Option Query := do
  let place ← (Place.run limit .start tokens).toOption
  let statement ← place.statement?
  (ofStatement statement).toOption

theorem ofTokens?_unplaced (limit : Nat) (tokens : List Token) :
    ofTokens? limit (tokens.map Token.unplaced) = ofTokens? limit tokens := by
  have ran := Place.run_unplaced limit .start tokens
  have start : Place.start.unplaced = .start := rfl
  rw [start] at ran
  unfold ofTokens?
  rw [ran]
  cases (Place.run limit .start tokens).toOption with
  | none => rfl
  | some place =>
    simp only [Option.map_some, Option.bind_eq_bind, Option.bind_some, Place.statement?_unplaced]
    cases place.statement? with
    | none => rfl
    | some statement => exact ofStatement_unplaced statement

/-- Tokens that differ in their columns only are read as the same query. -/
theorem ofTokens?_eq_of_kinds {limit : Nat} {tokens others : List Token}
    (same : tokens.map Token.kind = others.map Token.kind) :
    ofTokens? limit tokens = ofTokens? limit others := by
  have unplaced (tokens : List Token) :
      tokens.map Token.unplaced = (tokens.map Token.kind).map fun kind => ⟨kind, 0⟩ := by
    rw [List.map_map]
    rfl
  rw [← ofTokens?_unplaced limit tokens, ← ofTokens?_unplaced limit others, unplaced, unplaced,
    same]

/-- A text is read as the query that its tokens are read as. -/
theorem read_eq_ok_iff_ofTokens? {limit : Nat} {text : String} {tokens : List Token} {query : Query}
    (scanned : Token.scan text.toList = .ok tokens) :
    read limit text = .ok query ↔ ofTokens? limit tokens = some query := by
  simp only [ofTokens?, Option.bind_eq_bind, Option.bind_eq_some_iff, toOption_eq_some_iff]
  constructor
  · intro run
    obtain ⟨others, place, statement, again, ran, atEnd, built⟩ := read_eq_ok_iff.mp run
    obtain rfl := Except.ok.inj (scanned.symm.trans again)
    exact ⟨place, ran, statement, atEnd, built⟩
  · rintro ⟨place, ran, statement, atEnd, built⟩
    exact read_eq_ok_iff.mpr ⟨tokens, place, statement, scanned, ran, atEnd, built⟩

end Query

end RecordQuery
