import RecordQuery.Proofs.Grammar
import RecordQuery.Proofs.Reading

namespace RecordQuery

theorem Numeral.fitsWord_iff {numeral : Numeral} :
    numeral.FitsWord ↔
      Int64.minValue.toInt ≤ numeral.value ∧ numeral.value ≤ Int64.maxValue.toInt := by
  have least : Int64.minValue.toInt = -9223372036854775808 := by decide
  have greatest : Int64.maxValue.toInt = 9223372036854775807 := by decide
  rw [FitsWord, least, greatest]

theorem Numeral.toWord_of_fitsWord {numeral : Numeral} (fits : numeral.FitsWord) (column : Nat) :
    numeral.toWord column = .ok (Int64.ofInt numeral.value) := by
  rw [toWord, if_pos (fitsWord_iff.mp fits)]

theorem Numeral.toWord_of_not_fitsWord {numeral : Numeral} (exceeds : ¬numeral.FitsWord)
    (column : Nat) : numeral.toWord column = .error ⟨column, .integerRange numeral⟩ := by
  rw [toWord, if_neg (mt fitsWord_iff.mpr exceeds)]

theorem WrittenLiteral.literal_of_kind (written : WrittenLiteral) (column : Nat) :
    ∃ literal, Token.literal? ⟨written.kind, column⟩ = some literal ∧
      ∀ value, literal.toScalar = .ok value → written.scalar? = some value := by
  cases written with
  | boolean value => exact ⟨.boolean value, rfl, fun _ same => congrArg some (Except.ok.inj same)⟩
  | text literal => exact ⟨.text literal.content, rfl, fun _ same => congrArg some (Except.ok.inj same)⟩
  | integer numeral =>
    refine ⟨.integer numeral column, rfl, fun value run => ?_⟩
    obtain ⟨word, atNumeral, rfl⟩ := exists_of_map_eq_ok run
    by_cases fits : numeral.FitsWord
    · rw [Numeral.toWord_of_fitsWord fits] at atNumeral
      cases atNumeral
      rw [scalar?, if_pos fits]
    · rw [Numeral.toWord_of_not_fitsWord fits] at atNumeral
      cases atNumeral

namespace Place

variable {limit : Nat} {levels : Levels} {name : String}

/-- The items of a written list, from the place behind its bracket on. -/
theorem reads_series (literals : Series WrittenLiteral) (items : List Literal) :
    Reads limit (.listItem levels name items) (literals.kinds fun literal => [literal.kind])
      fun place => ∃ read, place = .listNext levels name (read.reverse ++ items) ∧
        ∀ values, Literal.toScalars read = .ok values →
          literals.toList.mapM WrittenLiteral.scalar? = some values := by
  obtain ⟨first, rest⟩ := literals
  induction rest generalizing first items with
  | nil =>
    refine .cons fun column => ?_
    obtain ⟨literal, isLiteral, value⟩ := first.literal_of_kind column
    refine ⟨.listNext levels name (literal :: items), ?_, .nil ⟨[literal], rfl, fun values run => ?_⟩⟩
    · simp only [next?, isLiteral, Option.map_some]
    · obtain ⟨scalar, atFirst, run⟩ := exists_of_bind_eq_ok run
      cases run
      simp [Series.toList, value scalar atFirst]
  | cons next rest ih =>
    refine .cons fun column => ?_
    obtain ⟨literal, isLiteral, value⟩ := first.literal_of_kind column
    refine ⟨.listNext levels name (literal :: items), ?_, .cons fun _ => ⟨_, rfl, ?_⟩⟩
    · simp only [next?, isLiteral, Option.map_some]
    · refine (ih (literal :: items) next).mono ?_
      rintro _ ⟨read, rfl, values⟩
      refine ⟨literal :: read, by simp, fun all run => ?_⟩
      obtain ⟨scalar, atFirst, run⟩ := exists_of_bind_eq_ok run
      obtain ⟨others, atRest, run⟩ := exists_of_bind_eq_ok run
      cases run
      have later := values others atRest
      simp only [Series.toList] at later ⊢
      rw [List.mapM_cons, value scalar atFirst, later]
      rfl

/-- A condition is read as one whose test is the written one. -/
theorem reads_condition (test : WrittenTest) :
    Reads limit (.operand levels) (Phrase.condition name test).kinds fun place =>
      ∃ read, place = .operandEnd (levels.pushLeaf name read) ∧
        ∀ built, read.toTest = .ok built → test.test? = some built := by
  refine .cons fun _ => ⟨.operator levels name, rfl, ?_⟩
  cases test with
  | relate relation written =>
    refine .cons fun _ => ⟨.related levels name relation, rfl, .cons fun column => ?_⟩
    obtain ⟨literal, isLiteral, value⟩ := written.literal_of_kind column
    refine ⟨.operandEnd (levels.pushLeaf name (.relate relation literal)), ?_,
      .nil ⟨_, rfl, fun built run => ?_⟩⟩
    · simp only [next?, isLiteral, Option.map_some]
    · obtain ⟨scalar, atLiteral, rfl⟩ := exists_of_map_eq_ok run
      rw [WrittenTest.test?, value scalar atLiteral, Option.map_some]
  | like pattern =>
    refine .cons fun _ => ⟨.pattern levels name, rfl, .cons fun column =>
      ⟨_, rfl, .nil ⟨.like pattern.content column, rfl, fun built run => ?_⟩⟩⟩
    rw [ConditionTest.toTest] at run
    split at run
    · rename_i compiled accepted
      cases run
      rw [WrittenTest.test?, accepted]
      rfl
    · cases run
  | isIn literals =>
    refine .cons fun _ => ⟨.listStart levels name, rfl, .cons fun _ => ⟨_, rfl, ?_⟩⟩
    refine (reads_series literals []).append ?_
    rintro _ ⟨read, rfl, values⟩
    refine .cons fun _ => ⟨_, rfl, .nil ⟨.isIn read, ?_, fun built run => ?_⟩⟩
    · rw [List.append_nil, List.reverse_reverse]
    · obtain ⟨all, atRead, rfl⟩ := exists_of_map_eq_ok run
      rw [WrittenTest.test?, values all atRead, Option.map_some]
  | contains text =>
    refine .cons fun _ => ⟨.element levels name, rfl, .cons fun _ =>
      ⟨_, rfl, .nil ⟨.contains text.content, rfl, fun built run => ?_⟩⟩⟩
    cases run
    rfl

end Place

namespace Filter

theorem paths_node (connective : Connective) (children : List Filter) :
    (node connective children).paths = children.flatMap paths := by
  rw [paths]
  induction children with
  | nil => rfl
  | cons child rest ih => rw [pathsOfAll, ih, List.flatMap_cons]

theorem paths_spliced (connective : Connective) (filter : Filter) :
    (filter.spliced connective).flatMap paths = filter.paths := by
  cases filter with
  | leaf comparison => rfl
  | node own children =>
    by_cases same : own = connective
    · rw [spliced, if_pos same, paths_node]
    · rw [spliced, if_neg same, List.flatMap_singleton]

end Filter

/-- Whether the filter that a node stands for has the plain meaning of an expression: its verdict
on every record, and its names in their order. -/
def Node.Means (node : Node) (phrase : Phrase) : Prop :=
  ∀ filter, node.toFilter = .ok filter →
    (∀ mode record, phrase.evaluate? mode record = some (filter.evaluate mode record)) ∧
      filter.paths = phrase.names

/-- Whether operands that a connective joins have the plain meaning of an expression. -/
def Phrase.JoinedOf (connective : Connective) (nodes : List Node) (phrase : Phrase) : Prop :=
  ∀ children, Node.buildOperands connective nodes = .ok children →
    (∀ mode record, phrase.evaluate? mode record =
      some (Filter.evaluateAll mode record connective children)) ∧
      children.flatMap Filter.paths = phrase.names

namespace Node

variable {connective : Connective} {nodes : List Node} {phrase : Phrase}

theorem means_condition {name : String} {read : ConditionTest} {test : WrittenTest}
    (same : ∀ built, read.toTest = .ok built → test.test? = some built) :
    (leaf ⟨name, read⟩).Means (.condition name test) := by
  intro filter run
  obtain ⟨comparison, atCondition, rfl⟩ := exists_of_map_eq_ok run
  obtain ⟨built, atTest, rfl⟩ := exists_of_map_eq_ok atCondition
  refine ⟨fun mode record => ?_, ?_⟩
  · rw [Phrase.evaluate?, same built atTest]
    rfl
  · rw [Filter.paths, dotted_pathOfName, Phrase.names]

theorem Means.group {content : Node} (means : content.Means phrase) :
    (Node.group content).Means (.group phrase) := by
  intro filter run
  rw [toFilter] at run
  exact means filter run

theorem Means.joinedOf {node : Node} (means : node.Means phrase) (connective : Connective) :
    phrase.JoinedOf connective [node] := by
  intro children run
  rw [buildOperands_cons] at run
  obtain ⟨filter, built, run⟩ := exists_of_bind_eq_ok run
  obtain ⟨others, none, run⟩ := exists_of_bind_eq_ok run
  rw [buildOperands] at none
  cases none
  cases run
  obtain ⟨verdict, names⟩ := means filter built
  rw [List.append_nil, Filter.paths_spliced]
  refine ⟨fun mode record => ?_, names⟩
  rw [Filter.evaluateAll_spliced]
  exact verdict mode record

theorem means_join (joined : phrase.JoinedOf connective nodes) :
    (join connective nodes).Means phrase := by
  intro filter run
  match nodes with
  | [node] =>
    have alone : buildOperands connective [node] = .ok (filter.spliced connective) := by
      rw [buildOperands_cons, show node.toFilter = .ok filter from run, buildOperands]
      exact congrArg Except.ok (List.append_nil _)
    obtain ⟨verdict, names⟩ := joined _ alone
    simp only [Filter.evaluateAll_spliced] at verdict
    exact ⟨verdict, by rw [← names, Filter.paths_spliced]⟩
  | [] | first :: second :: rest =>
    have chained : (chain connective _).toFilter = .ok filter := run
    rw [toFilter] at chained
    obtain ⟨children, whole, rfl⟩ := exists_of_map_eq_ok chained
    obtain ⟨verdict, names⟩ := joined children whole
    exact ⟨verdict, by rw [Filter.paths_node, names]⟩

end Node

namespace Phrase

variable {connective : Connective} {left right : Phrase} {front back : List Node}

theorem JoinedOf.pair (atLeft : left.JoinedOf connective front)
    (atRight : right.JoinedOf connective back) :
    (Phrase.pair connective left right).JoinedOf connective (front ++ back) := by
  intro children run
  rw [Node.buildOperands_append] at run
  obtain ⟨first, atFront, run⟩ := exists_of_bind_eq_ok run
  obtain ⟨second, atBack, run⟩ := exists_of_bind_eq_ok run
  cases run
  obtain ⟨leftVerdict, leftNames⟩ := atLeft first atFront
  obtain ⟨rightVerdict, rightNames⟩ := atRight second atBack
  refine ⟨fun mode record => ?_, ?_⟩
  · rw [evaluate?, leftVerdict, rightVerdict, Filter.evaluateAll_append]
    rfl
  · rw [List.flatMap_append, leftNames, rightNames, names]

end Phrase

namespace Level

variable {level middle inner : Level} {phrase left right : Phrase}

/-- What a level gains when an expression is read in it. A conjunction adds operands to the current
alternative; what is no conjunction can only begin an alternative and adds alternatives. -/
structure Gains (level : Level) (phrase : Phrase) (inner : Level) : Prop where
  operands : phrase.isDisjunction = false → ∃ nodes,
    inner = ⟨level.alternatives, nodes.reverse ++ level.operands⟩ ∧ phrase.JoinedOf .and nodes
  alternatives : level.operands = [] → ∃ nodes,
    inner.closed = nodes.reverse ++ level.alternatives ∧ phrase.JoinedOf .or nodes

theorem gains_of_operands (level : Level) {nodes : List Node} (joined : phrase.JoinedOf .and nodes) :
    level.Gains phrase ⟨level.alternatives, nodes.reverse ++ level.operands⟩ where
  operands _ := ⟨nodes, rfl, joined⟩
  alternatives empty := by
    refine ⟨[.join .and nodes], ?_, (Node.means_join joined).joinedOf .or⟩
    rw [closed, empty, List.append_nil, List.reverse_reverse, List.reverse_singleton,
      List.singleton_append]

theorem gains_push {node : Node} (means : node.Means phrase) :
    level.Gains phrase (level.push node) :=
  gains_of_operands level (means.joinedOf .and)

theorem Gains.pair {connective : Connective} (first : level.Gains left middle)
    (second : (middle.next connective).Gains right inner)
    (tight : connective = .and → left.isDisjunction = false ∧ right.isDisjunction = false) :
    level.Gains (.pair connective left right) inner := by
  cases connective with
  | and =>
    obtain ⟨noneLeft, noneRight⟩ := tight rfl
    obtain ⟨front, rfl, atLeft⟩ := first.operands noneLeft
    obtain ⟨back, rfl, atRight⟩ := second.operands noneRight
    have joined := gains_of_operands level (atLeft.pair atRight)
    rwa [List.reverse_append, List.append_assoc] at joined
  | or =>
    refine ⟨nofun, fun empty => ?_⟩
    obtain ⟨front, atMiddle, atLeft⟩ := first.alternatives empty
    obtain ⟨back, atInner, atRight⟩ := second.alternatives rfl
    refine ⟨front ++ back, ?_, atLeft.pair atRight⟩
    have before : (middle.next .or).alternatives = middle.closed := rfl
    rw [atInner, before, atMiddle, List.reverse_append, List.append_assoc]

theorem Gains.toNode (gains : Level.empty.Gains phrase inner) : inner.toNode.Means phrase := by
  obtain ⟨nodes, atInner, joined⟩ := gains.alternatives rfl
  have all : inner.closed.reverse = nodes := by
    rw [atInner, empty, List.append_nil, List.reverse_reverse]
  rw [Level.toNode, all]
  exact Node.means_join joined

end Level

namespace Place

variable {limit : Nat} {place : Place} {outer : List Level} {expression? : Option Node}

/-- Every derivation of an expression whose groups find room is read. If it is grouped by
precedence, what is read has its plain meaning. -/
theorem reads_phrase {phrase : Phrase} {level : Level}
    (within : phrase.nesting = 0 ∨ outer.length + phrase.nesting ≤ limit) :
    Reads limit (.operand ⟨level, outer⟩) phrase.kinds fun place => ∃ inner,
      place = .operandEnd ⟨inner, outer⟩ ∧ (phrase.ByPrecedence → level.Gains phrase inner) := by
  induction phrase generalizing level outer with
  | condition name test =>
    refine (reads_condition test).mono ?_
    rintro _ ⟨read, rfl, same⟩
    exact ⟨_, rfl, fun _ => Level.gains_push (Node.means_condition same)⟩
  | group content ih =>
    rw [Phrase.nesting] at within
    have room : (Levels.mk level outer).depth + 1 ≤ limit := by
      simp only [Levels.depth]
      omega
    refine .cons fun column => ⟨.operand ⟨.empty, level :: outer⟩, ?_, (ih ?_).append ?_⟩
    · simp only [next?, afterOperandStart?, if_pos room]
      rfl
    · rw [List.length_cons]
      omega
    · rintro _ ⟨inner, rfl, gains⟩
      refine .cons fun _ => ⟨_, rfl, .nil ⟨_, rfl, fun byPrecedence => ?_⟩⟩
      exact Level.gains_push (gains byPrecedence).toNode.group
  | pair connective left right atLeft atRight =>
    rw [Phrase.nesting] at within
    refine (atLeft (by omega)).append ?_
    rintro _ ⟨middle, rfl, first⟩
    refine .cons fun column => ⟨_, next_connective connective middle outer column, ?_⟩
    refine (atRight (by omega)).mono ?_
    rintro _ ⟨inner, rfl, second⟩
    refine ⟨inner, rfl, fun byPrecedence => ?_⟩
    obtain ⟨tight, leftTight, rightTight⟩ := byPrecedence
    exact (first leftTight).pair (second rightTight) tight

/-- A place where a statement with an expression may end, and where any of some clauses may begin
instead. -/
def EndsWith (limit : Nat) (words : List Keyword) (expression? : Option Node) (place : Place) :
    Prop :=
  ∃ read, place.statement? = some read ∧ read.expression? = expression? ∧
    ∀ word ∈ words, ∀ column,
      place.next? limit ⟨.keyword word, column⟩ = clause? read (.keyword word)

theorem EndsWith.mono {words fewer : List Keyword} (ends : EndsWith limit words expression? place)
    (among : fewer ⊆ words) : EndsWith limit fewer expression? place := by
  obtain ⟨read, atEnd, same, clauses⟩ := ends
  exact ⟨read, atEnd, same, fun word member => clauses word (among member)⟩

/-- A place behind a sort key, where another key may follow. -/
structure EndsKey (limit : Nat) (read : Statement) (keys : List SortKey) (place : Place) : Prop where
  statement : place.statement? = some (withOrder read keys)
  comma : ∀ column, place.next? limit ⟨.punctuation .comma, column⟩ = some (.sortField read keys)
  clause : ∀ word ∈ [Keyword.limit, .offset], ∀ column,
    place.next? limit ⟨.keyword word, column⟩ = clause? (withOrder read keys) (.keyword word)

theorem endsKey_sortDirection (read : Statement) (keys : List SortKey) (field : String) :
    EndsKey limit read (⟨field, .asc⟩ :: keys) (.sortDirection read keys field) where
  statement := rfl
  comma _ := rfl
  clause word member column := by
    rcases List.mem_pair.mp member with rfl | rfl <;> rfl

theorem endsKey_sortKeyEnd (read : Statement) (keys : List SortKey) :
    EndsKey limit read keys (.sortKeyEnd read keys) where
  statement := rfl
  comma _ := rfl
  clause word member column := by
    rcases List.mem_pair.mp member with rfl | rfl <;> rfl

theorem reads_key (read : Statement) (keys : List SortKey) (key : WrittenKey) :
    Reads limit (.sortField read keys) key.kinds fun place => ∃ more, EndsKey limit read more place := by
  obtain ⟨field, direction?⟩ := key
  refine .cons fun _ => ⟨.sortDirection read keys field, rfl, ?_⟩
  cases direction? with
  | none => exact .nil ⟨_, endsKey_sortDirection read keys field⟩
  | some direction =>
    refine .cons fun _ => ⟨.sortKeyEnd read (⟨field, direction⟩ :: keys), ?_,
      .nil ⟨_, endsKey_sortKeyEnd read _⟩⟩
    cases direction <;> rfl

theorem reads_moreKeys {read : Statement} {keys : List SortKey} (rest : List WrittenKey)
    (ends : EndsKey limit read keys place) :
    Reads limit place (Series.kindsOfRest WrittenKey.kinds rest) fun place =>
      ∃ more, EndsKey limit read more place := by
  induction rest generalizing place keys with
  | nil => exact .nil ⟨keys, ends⟩
  | cons key rest ih =>
    refine .cons fun column => ⟨.sortField read keys, ends.comma column, ?_⟩
    refine (reads_key read keys key).append ?_
    rintro reached ⟨more, next⟩
    exact ih next

theorem reads_orderKinds (order? : Option (Series WrittenKey))
    (ends : EndsWith limit [.order, .limit, .offset] expression? place) :
    Reads limit place (Sentence.orderKinds order?)
      (EndsWith limit [.limit, .offset] expression?) := by
  cases order? with
  | none => exact .nil (ends.mono (by simp))
  | some keys =>
    obtain ⟨read, _, same, clauses⟩ := ends
    refine .cons fun column => ⟨.sortedBy read, clauses .order (by simp) column, ?_⟩
    refine .cons fun _ => ⟨.sortField read [], rfl, (reads_key read [] keys.first).append ?_⟩
    rintro reached ⟨before, first⟩
    refine (reads_moreKeys keys.rest first).mono ?_
    rintro last ⟨all, ends⟩
    exact ⟨withOrder read all, ends.statement, same, ends.clause⟩

theorem reads_limitKinds (limit? : Option Numeral)
    (ends : EndsWith limit [.limit, .offset] expression? place) :
    Reads limit place (Sentence.limitKinds limit?) (EndsWith limit [.offset] expression?) := by
  cases limit? with
  | none => exact .nil (ends.mono (by simp))
  | some numeral =>
    obtain ⟨read, _, same, clauses⟩ := ends
    refine (reads_limitClause numeral (clauses .limit (by simp))).mono ?_
    rintro _ ⟨column, rfl⟩
    refine ⟨_, rfl, same, fun word member column => ?_⟩
    rw [List.mem_singleton.mp member]
    rfl

theorem reads_offsetKinds (offset? : Option QuotedText)
    (ends : EndsWith limit [.offset] expression? place) :
    Reads limit place (Sentence.offsetKinds offset?) (EndsWith limit [] expression?) := by
  cases offset? with
  | none => exact .nil (ends.mono (by simp))
  | some text =>
    obtain ⟨read, _, same, clauses⟩ := ends
    refine (reads_offsetClause text (clauses .offset (by simp))).mono ?_
    rintro _ rfl
    exact ⟨_, rfl, same, fun _ => nofun⟩

theorem reads_clauseKinds (sentence : Sentence)
    (ends : EndsWith limit [.order, .limit, .offset] expression? place) :
    Reads limit place sentence.clauseKinds (EndsWith limit [] expression?) := by
  refine (reads_orderKinds sentence.order? ends).append fun reached behind => ?_
  exact (reads_limitKinds sentence.limit? behind).append fun _ last =>
    reads_offsetKinds sentence.offset? last

theorem endsWith_start : EndsWith limit [.order, .limit, .offset] none .start :=
  ⟨ofExpression none, rfl, rfl, fun _ => next_clause_start⟩

theorem endsWith_operandEnd (level : Level) :
    EndsWith limit [.order, .limit, .offset] (some level.toNode) (.operandEnd ⟨level, []⟩) :=
  ⟨ofExpression (some level.toNode), rfl, rfl, fun _ => next_clause_operandEnd level⟩

end Place

theorem Phrase.beginsOperand_kinds (phrase : Phrase) : Place.BeginsOperand phrase.kinds := by
  induction phrase with
  | condition | group => exact ⟨_, _, rfl, fun _ => rfl⟩
  | pair connective left right atLeft _ =>
    obtain ⟨kind, rest, same, noClause⟩ := atLeft
    refine ⟨kind, rest ++ .keyword connective.keyword :: right.kinds, ?_, noClause⟩
    rw [kinds, same, List.cons_append]

/-- Whether the expression of a statement is that of a sentence, with its plain meaning. -/
def Sentence.ReadAs (sentence : Sentence) (expression? : Option Node) : Prop :=
  Option.Rel (fun phrase node => phrase.ByPrecedence → node.Means phrase) sentence.phrase? expression?

/-- Every derivation of a query whose groups find room is read. -/
theorem Place.reads_sentence {limit : Nat} {sentence : Sentence} (within : sentence.nesting ≤ limit) :
    Reads limit .start sentence.kinds fun place => ∃ read, place.statement? = some read ∧
      sentence.ReadAs read.expression? := by
  obtain ⟨phrase?, order?, limit?, offset?⟩ := sentence
  have finished {place : Place} {expression? : Option Node}
      (readAs : Sentence.ReadAs ⟨phrase?, order?, limit?, offset?⟩ expression?)
      (ends : EndsWith limit [] expression? place) : ∃ read, place.statement? = some read ∧
        Sentence.ReadAs ⟨phrase?, order?, limit?, offset?⟩ read.expression? := by
    obtain ⟨read, atEnd, rfl, _⟩ := ends
    exact ⟨read, atEnd, readAs⟩
  cases phrase? with
  | none =>
    exact (reads_clauseKinds _ endsWith_start).mono fun place ends => finished .none ends
  | some phrase =>
    have room : phrase.nesting = 0 ∨ ([] : List Level).length + phrase.nesting ≤ limit := by
      simp only [Sentence.nesting, Option.elim_some] at within
      simp only [List.length_nil]
      omega
    refine (Reads.start phrase.beginsOperand_kinds (reads_phrase room)).append ?_
    rintro _ ⟨inner, rfl, gains⟩
    refine (reads_clauseKinds _ (endsWith_operandEnd inner)).mono fun place ends => ?_
    exact finished (.some fun byPrecedence => (gains byPrecedence).toNode) ends

end RecordQuery
