import RecordQuery.Proofs.Building
import RecordQuery.Query.Parse

namespace RecordQuery

/-- Whether the content of a literal can be written again. -/
def Literal.Quotable : Literal → Prop
  | .text content => QuoteMark.Quotable content
  | _ => True

/-- Whether the literals of a test can be written again. A list must not be empty. -/
def ConditionTest.Quotable : ConditionTest → Prop
  | .relate _ literal => literal.Quotable
  | .like pattern _ => QuoteMark.Quotable pattern
  | .isIn literals => literals ≠ [] ∧ ∀ literal ∈ literals, literal.Quotable
  | .contains text => QuoteMark.Quotable text

theorem QuoteMark.quotable_of_not_mem {mark : QuoteMark} {text : String}
    (absent : mark.char ∉ text.toList) : Quotable text := by
  cases mark with
  | double => exact Or.inl absent
  | single => exact Or.inr absent

theorem Token.quotable_of_literal? {token : Token} {literal : Literal}
    (wellFormed : token.kind.WellFormed) (read : token.literal? = some literal) :
    literal.Quotable := by
  unfold literal? at read
  split at read
  · cases read
    trivial
  · cases read
    trivial
  · rename_i text atKind
    cases read
    rw [atKind] at wellFormed
    exact QuoteMark.quotable_of_not_mem wellFormed
  · cases read

theorem Literal.writable_of_toScalar {literal : Literal} {value : Scalar}
    (quotable : literal.Quotable) (run : literal.toScalar = .ok value) : value.Writable := by
  cases literal with
  | boolean flag =>
    cases run
    trivial
  | text content =>
    cases run
    exact quotable
  | integer numeral column =>
    obtain ⟨word, _, rfl⟩ := exists_of_map_eq_ok run
    trivial

theorem Literal.writable_of_toScalars {literals : List Literal} {values : List Scalar}
    (quotable : ∀ literal ∈ literals, literal.Quotable) (run : toScalars literals = .ok values) :
    values.length = literals.length ∧ ∀ value ∈ values, value.Writable := by
  induction literals generalizing values with
  | nil =>
    cases run
    exact ⟨rfl, fun value member => nomatch member⟩
  | cons literal rest ih =>
    obtain ⟨value, first, run⟩ := exists_of_bind_eq_ok run
    obtain ⟨others, later, run⟩ := exists_of_bind_eq_ok run
    cases run
    obtain ⟨length, writable⟩ := ih (fun other member => quotable other (.tail literal member)) later
    refine ⟨by rw [List.length_cons, List.length_cons, length], fun next member => ?_⟩
    rcases List.mem_cons.mp member with rfl | member
    · exact writable_of_toScalar (quotable literal List.mem_cons_self) first
    · exact writable next member

theorem ConditionTest.writable_of_toTest {test : ConditionTest} {built : Test}
    (quotable : test.Quotable) (run : test.toTest = .ok built) : built.Writable := by
  cases test with
  | relate relation literal =>
    obtain ⟨value, atLiteral, rfl⟩ := exists_of_map_eq_ok run
    exact Literal.writable_of_toScalar quotable atLiteral
  | like pattern column =>
    rw [toTest] at run
    split at run
    · rename_i compiled atPattern
      cases run
      obtain ⟨regex, _, rfl⟩ := exists_of_map_eq_ok atPattern
      exact ⟨quotable, atPattern⟩
    · cases run
  | isIn literals =>
    obtain ⟨values, atLiterals, rfl⟩ := exists_of_map_eq_ok run
    obtain ⟨length, writable⟩ := Literal.writable_of_toScalars quotable.2 atLiterals
    refine ⟨fun empty => quotable.1 ?_, writable⟩
    rw [empty] at length
    exact List.length_eq_zero_iff.mp length.symm
  | contains text =>
    cases run
    exact quotable

/-- Whether any filter that a node stands for has the form of a built one and is at most so
deep. -/
def Node.Within (bound : Nat) (node : Node) : Prop :=
  ∀ filter, node.toFilter = .ok filter → filter.Built bound

namespace Node

variable {bound : Nat}

theorem within_leaf {name : String} {test : ConditionTest}
    (wellFormed : (TokenKind.identifier name).WellFormed) (quotable : test.Quotable) :
    (leaf ⟨name, test⟩).Within bound := by
  intro filter run
  obtain ⟨comparison, atCondition, rfl⟩ := exists_of_map_eq_ok run
  obtain ⟨built, atTest, rfl⟩ := exists_of_map_eq_ok atCondition
  refine ⟨.leaf _, Nat.zero_le bound, fun comparison member => ?_⟩
  rw [Filter.comparisons, List.mem_singleton] at member
  subst member
  exact ⟨⟨name, wellFormed, rfl⟩, ConditionTest.writable_of_toTest quotable atTest⟩

theorem within_join {connective : Connective} {nodes : List Node} (nonempty : nodes ≠ [])
    (within : ∀ node ∈ nodes, node.Within bound) : (join connective nodes).Within (bound + 1) :=
  fun _ run => built_join nonempty within run

theorem within_group {content : Node} (within : content.Within bound) :
    (group content).Within bound := by
  intro filter run
  rw [toFilter] at run
  exact within filter run

end Node

namespace Level

variable {budget : Nat} {level : Level}

/-- What a level holds is not deeper than the groups that may still be opened in it allow: two
nodes for each of them. -/
structure Sound (budget : Nat) (level : Level) : Prop where
  alternatives : ∀ node ∈ level.alternatives, node.Within (2 * budget + 1)
  operands : ∀ node ∈ level.operands, node.Within (2 * budget)

theorem sound_empty : empty.Sound budget :=
  ⟨fun _ => List.not_mem_nil.elim, fun _ => List.not_mem_nil.elim⟩

theorem Sound.push (sound : level.Sound budget) {operand : Node}
    (within : operand.Within (2 * budget)) : (level.push operand).Sound budget := by
  refine ⟨sound.alternatives, fun node member => ?_⟩
  rcases List.mem_cons.mp member with rfl | before
  · exact within
  · exact sound.operands node before

theorem Sound.closed (sound : level.Sound budget) (nonempty : level.operands ≠ []) :
    ∀ node ∈ level.closed, node.Within (2 * budget + 1) := by
  intro node member
  rcases List.mem_cons.mp member with rfl | before
  · refine Node.within_join (fun empty => nonempty (List.reverse_eq_nil_iff.mp empty)) ?_
    intro operand inOperands
    exact sound.operands operand (List.mem_reverse.mp inOperands)
  · exact sound.alternatives node before

theorem Sound.nextAlternative (sound : level.Sound budget) (nonempty : level.operands ≠ []) :
    level.nextAlternative.Sound budget :=
  ⟨sound.closed nonempty, fun _ member => nomatch member⟩

theorem Sound.toNode (sound : level.Sound budget) (nonempty : level.operands ≠ []) :
    level.toNode.Within (2 * budget + 2) := by
  have alternatives := sound.closed nonempty
  refine Node.within_join (fun empty => ?_) fun node member => ?_
  · cases List.reverse_eq_nil_iff.mp empty
  · exact alternatives node (List.mem_reverse.mp member)

end Level

namespace Levels

variable {budget limit : Nat} {levels : Levels}

/-- The levels around a group are sound if each of them allows one more group than the level
inside it. -/
def SoundOuter : Nat → List Level → Prop
  | _, [] => True
  | budget, level :: outer => level.Sound (budget + 1) ∧ SoundOuter (budget + 1) outer

/-- The invariant of the levels: the limit is spent on the groups that are open and on those
that may still be opened. -/
def Sound (limit : Nat) (levels : Levels) : Prop :=
  ∃ budget, budget + levels.depth = limit ∧ levels.inner.Sound budget ∧
    SoundOuter budget levels.outer

theorem sound_empty : Levels.empty.Sound limit :=
  ⟨limit, rfl, Level.sound_empty, trivial⟩

theorem Sound.enter (sound : levels.Sound limit) (room : levels.depth + 1 ≤ limit) :
    levels.enter.Sound limit := by
  obtain ⟨budget, spent, inner, outer⟩ := sound
  -- the group takes one from the budget of the level around it
  obtain ⟨rest, rfl⟩ : ∃ rest, budget = rest + 1 := ⟨budget - 1, by omega⟩
  refine ⟨rest, ?_, Level.sound_empty, inner, outer⟩
  simp only [Levels.enter, Levels.depth, List.length_cons] at spent ⊢
  omega

theorem Sound.pushLeaf (sound : levels.Sound limit) {name : String} {test : ConditionTest}
    (wellFormed : (TokenKind.identifier name).WellFormed) (quotable : test.Quotable) :
    (levels.pushLeaf name test).Sound limit := by
  obtain ⟨budget, spent, inner, outer⟩ := sound
  exact ⟨budget, spent, inner.push (Node.within_leaf wellFormed quotable), outer⟩

theorem Sound.nextAlternative (sound : levels.Sound limit) (nonempty : levels.inner.operands ≠ []) :
    levels.nextAlternative.Sound limit := by
  obtain ⟨budget, spent, inner, outer⟩ := sound
  exact ⟨budget, spent, inner.nextAlternative nonempty, outer⟩

theorem Sound.leave (sound : levels.Sound limit) (nonempty : levels.inner.operands ≠ [])
    {left : Levels} (left? : levels.leave? = some left) :
    left.Sound limit ∧ left.inner.operands ≠ [] := by
  obtain ⟨budget, spent, inner, outer⟩ := sound
  unfold leave? at left?
  split at left?
  · cases left?
  · rename_i level others atOuter
    cases left?
    rw [atOuter] at outer
    refine ⟨⟨budget + 1, ?_, ?_, outer.2⟩, List.cons_ne_nil _ _⟩
    · simp only [depth, atOuter, List.length_cons] at spent ⊢
      omega
    · exact outer.1.push (Node.within_group (inner.toNode nonempty))

theorem Sound.toNode (sound : levels.Sound limit) (nonempty : levels.inner.operands ≠ [])
    (outermost : levels.depth = 0) : levels.inner.toNode.Within (2 * limit + 2) := by
  obtain ⟨budget, spent, inner, _⟩ := sound
  obtain rfl : budget = limit := by omega
  exact inner.toNode nonempty

end Levels

/-- The invariant of a statement: its expression is as deep as the limit allows at most, and its
clauses can be written again. -/
structure Statement.Sound (limit : Nat) (read : Statement) : Prop where
  expression : ∀ node, read.expression? = some node → node.Within (2 * limit + 2)
  order : ∀ keys, read.order? = some keys →
    keys ≠ [] ∧ ∀ key ∈ keys, (TokenKind.identifier key.field).WellFormed
  offset : ∀ token, read.offset? = some token → QuoteMark.Quotable token

namespace Place

variable {limit : Nat} {place reached : Place} {levels : Levels} {read : Statement}
  {keys : List SortKey} {kind : TokenKind}

/-- Whether the fields of sort keys are identifiers. -/
def NamesFields (keys : List SortKey) : Prop :=
  ∀ key ∈ keys, (TokenKind.identifier key.field).WellFormed

/-- The invariant of a place: what has been read so far can be written again. -/
def Sound (limit : Nat) : Place → Prop
  | .start => True
  | .operand levels => levels.Sound limit
  | .operator levels name => levels.Sound limit ∧ (TokenKind.identifier name).WellFormed
  | .related levels name _ => levels.Sound limit ∧ (TokenKind.identifier name).WellFormed
  | .pattern levels name => levels.Sound limit ∧ (TokenKind.identifier name).WellFormed
  | .element levels name => levels.Sound limit ∧ (TokenKind.identifier name).WellFormed
  | .listStart levels name => levels.Sound limit ∧ (TokenKind.identifier name).WellFormed
  | .listItem levels name items =>
    levels.Sound limit ∧ (TokenKind.identifier name).WellFormed ∧ ∀ item ∈ items, item.Quotable
  | .listNext levels name items =>
    levels.Sound limit ∧ (TokenKind.identifier name).WellFormed ∧
      items ≠ [] ∧ ∀ item ∈ items, item.Quotable
  | .operandEnd levels => levels.Sound limit ∧ levels.inner.operands ≠ []
  | .sortedBy read => read.Sound limit
  | .sortField read keys => read.Sound limit ∧ NamesFields keys
  | .sortDirection read keys field =>
    read.Sound limit ∧ NamesFields keys ∧ (TokenKind.identifier field).WellFormed
  | .sortKeyEnd read keys => read.Sound limit ∧ NamesFields keys ∧ keys ≠ []
  | .limit read => read.Sound limit
  | .limitEnd read => read.Sound limit
  | .offset read => read.Sound limit
  | .offsetEnd read => read.Sound limit

theorem sound_ofExpression {expression? : Option Node}
    (within : ∀ node, expression? = some node → node.Within (2 * limit + 2)) :
    (ofExpression expression?).Sound limit := by
  refine ⟨within, fun _ missing => ?_, fun _ missing => ?_⟩
  · cases missing
  · cases missing

theorem sound_withOrder (sound : read.Sound limit) (fields : NamesFields keys)
    (nonempty : keys ≠ []) : (withOrder read keys).Sound limit := by
  refine ⟨sound.expression, fun others atOrder => ?_, sound.offset⟩
  obtain rfl := Option.some.inj atOrder
  refine ⟨fun empty => nonempty (List.reverse_eq_nil_iff.mp empty), fun key member => ?_⟩
  exact fields key (List.mem_reverse.mp member)

theorem NamesFields.cons (fields : NamesFields keys) {field : String}
    (wellFormed : (TokenKind.identifier field).WellFormed) (direction : Direction) :
    NamesFields (⟨field, direction⟩ :: keys) := by
  intro key member
  rcases List.mem_cons.mp member with rfl | before
  · exact wellFormed
  · exact fields key before

theorem sound_of_clause? (sound : read.Sound limit) (next : clause? read kind = some reached) :
    reached.Sound limit := by
  unfold clause? at next
  split at next
  · cases next
    exact sound
  · cases next
    exact sound
  · cases next
    exact sound
  · cases next

theorem sound_of_clauseAfterOrder? (sound : read.Sound limit)
    (next : clauseAfterOrder? read kind = some reached) : reached.Sound limit := by
  unfold clauseAfterOrder? at next
  split at next
  · cases next
    exact sound
  · cases next
    exact sound
  · cases next

theorem sound_of_afterOperandStart? (sound : levels.Sound limit) (wellFormed : kind.WellFormed)
    (next : afterOperandStart? limit levels kind = some reached) : reached.Sound limit := by
  unfold afterOperandStart? at next
  split at next
  · cases next
    exact ⟨sound, wellFormed⟩
  · split at next
    · rename_i room
      cases next
      exact sound.enter room
    · cases next
  · cases next

theorem sound_of_afterOperator? {name : String} (sound : levels.Sound limit)
    (wellFormed : (TokenKind.identifier name).WellFormed)
    (next : afterOperator? levels name kind = some reached) : reached.Sound limit := by
  unfold afterOperator? at next
  split at next
  case h_5 => cases next
  all_goals
    cases next
    exact ⟨sound, wellFormed⟩

theorem sound_of_afterOperandEnd? (sound : levels.Sound limit)
    (nonempty : levels.inner.operands ≠ [])
    (next : afterOperandEnd? levels kind = some reached) : reached.Sound limit := by
  unfold afterOperandEnd? at next
  split at next
  · cases next
    exact sound
  · cases next
    exact sound.nextAlternative nonempty
  · obtain ⟨left, atLeft, rfl⟩ := Option.map_eq_some_iff.mp next
    exact sound.leave nonempty atLeft
  · split at next
    · rename_i outermost
      refine sound_of_clause? (sound_ofExpression fun node same => ?_) next
      obtain rfl := Option.some.inj same
      exact sound.toNode nonempty outermost
    · cases next

theorem sound_of_afterSortKey? (sound : read.Sound limit) (fields : NamesFields keys)
    (nonempty : keys ≠ []) (next : afterSortKey? read keys kind = some reached) :
    reached.Sound limit := by
  unfold afterSortKey? at next
  split at next
  · cases next
    exact ⟨sound, fields⟩
  · exact sound_of_clauseAfterOrder? (sound_withOrder sound fields nonempty) next

theorem sound_of_afterSortField? {field : String} (sound : read.Sound limit)
    (fields : NamesFields keys) (wellFormed : (TokenKind.identifier field).WellFormed)
    (next : afterSortField? read keys field kind = some reached) : reached.Sound limit := by
  unfold afterSortField? at next
  split at next
  · cases next
    exact ⟨sound, fields.cons wellFormed .asc, List.cons_ne_nil _ _⟩
  · cases next
    exact ⟨sound, fields.cons wellFormed .desc, List.cons_ne_nil _ _⟩
  · exact sound_of_afterSortKey? sound (fields.cons wellFormed .asc) (List.cons_ne_nil _ _) next

/-- A condition that has been read ends an operand. -/
theorem sound_pushLeaf {name : String} {test : ConditionTest} (sound : levels.Sound limit)
    (wellFormed : (TokenKind.identifier name).WellFormed) (quotable : test.Quotable) :
    (operandEnd (levels.pushLeaf name test)).Sound limit :=
  ⟨sound.pushLeaf wellFormed quotable, List.cons_ne_nil _ _⟩

/-- Every token that can stand somewhere keeps the invariant. -/
theorem Sound.next {token : Token} (sound : place.Sound limit)
    (wellFormed : token.kind.WellFormed) (next : place.next? limit token = some reached) :
    reached.Sound limit := by
  unfold next? at next
  split at next
  case h_1 =>
    rcases Option.or_eq_some_iff.mp next with clause | ⟨_, operand⟩
    · refine sound_of_clause? (sound_ofExpression fun node missing => ?_) clause
      cases missing
    · exact sound_of_afterOperandStart? Levels.sound_empty wellFormed operand
  case h_2 => exact sound_of_afterOperandStart? sound wellFormed next
  case h_3 => exact sound_of_afterOperator? sound.1 sound.2 next
  case h_4 =>
    obtain ⟨literal, isLiteral, rfl⟩ := Option.map_eq_some_iff.mp next
    exact sound_pushLeaf sound.1 sound.2 (Token.quotable_of_literal? wellFormed isLiteral)
  case h_5 literal atKind =>
    cases next
    rw [atKind] at wellFormed
    exact sound_pushLeaf sound.1 sound.2 (QuoteMark.quotable_of_not_mem wellFormed)
  case h_6 literal atKind =>
    cases next
    rw [atKind] at wellFormed
    exact sound_pushLeaf sound.1 sound.2 (QuoteMark.quotable_of_not_mem wellFormed)
  case h_7 =>
    cases next
    exact ⟨sound.1, sound.2, fun item => List.not_mem_nil.elim⟩
  case h_8 =>
    obtain ⟨literal, isLiteral, rfl⟩ := Option.map_eq_some_iff.mp next
    refine ⟨sound.1, sound.2.1, List.cons_ne_nil _ _, fun item member => ?_⟩
    rcases List.mem_cons.mp member with rfl | before
    · exact Token.quotable_of_literal? wellFormed isLiteral
    · exact sound.2.2 item before
  case h_9 =>
    cases next
    exact ⟨sound.1, sound.2.1, sound.2.2.2⟩
  case h_10 =>
    cases next
    obtain ⟨levels, name, nonempty, items⟩ := sound
    refine sound_pushLeaf levels name ⟨fun empty => ?_, fun item member => ?_⟩
    · exact nonempty (List.reverse_eq_nil_iff.mp empty)
    · exact items item (List.mem_reverse.mp member)
  case h_11 => exact sound_of_afterOperandEnd? sound.1 sound.2 next
  case h_12 =>
    cases next
    exact ⟨sound, fun key => List.not_mem_nil.elim⟩
  case h_13 field atKind =>
    cases next
    rw [atKind] at wellFormed
    exact ⟨sound.1, sound.2, wellFormed⟩
  case h_14 => exact sound_of_afterSortField? sound.1 sound.2.1 sound.2.2 next
  case h_15 => exact sound_of_afterSortKey? sound.1 sound.2.1 sound.2.2 next
  case h_16 =>
    cases next
    exact ⟨sound.expression, sound.order, sound.offset⟩
  case h_17 =>
    cases next
    exact sound
  case h_18 literal atKind =>
    cases next
    rw [atKind] at wellFormed
    refine ⟨sound.expression, sound.order, fun token same => ?_⟩
    obtain rfl := Option.some.inj same
    exact QuoteMark.quotable_of_not_mem wellFormed
  case h_19 => cases next

theorem Sound.run {tokens : List Token} (sound : place.Sound limit)
    (wellFormed : ∀ token ∈ tokens, token.kind.WellFormed)
    (ran : run limit place tokens = .ok reached) : reached.Sound limit := by
  induction tokens generalizing place with
  | nil =>
    cases ran
    exact sound
  | cons token rest ih =>
    obtain ⟨following, next, ran⟩ := exists_next_of_run ran
    exact ih (sound.next (wellFormed token List.mem_cons_self) next)
      (fun other member => wellFormed other (List.mem_cons_of_mem token member)) ran

/-- A place where a statement may end holds a sound one. -/
theorem Sound.statement (sound : place.Sound limit) (atEnd : place.statement? = some read) :
    read.Sound limit := by
  unfold statement? at atEnd
  split at atEnd
  · cases atEnd
    refine sound_ofExpression fun node missing => ?_
    cases missing
  · split at atEnd
    · rename_i outermost
      cases atEnd
      refine sound_ofExpression fun node same => ?_
      obtain rfl := Option.some.inj same
      exact sound.1.toNode sound.2 outermost
    · cases atEnd
  · cases atEnd
    exact sound_withOrder sound.1 (sound.2.1.cons sound.2.2 .asc) (List.cons_ne_nil _ _)
  · cases atEnd
    exact sound_withOrder sound.1 sound.2.1 sound.2.2
  · cases atEnd
    exact sound
  · cases atEnd
    exact sound
  · cases atEnd

end Place

namespace Query

variable {limit : Nat} {text : String} {query : Query}

theorem parse_eq_ok_iff {settings : Settings} :
    parse settings text = .ok query ↔ read settings.maxDepth text = .ok query := by
  unfold parse
  cases read settings.maxDepth text with
  | ok other => exact Iff.of_eq (by simp [Except.mapError])
  | error problem => constructor <;> intro run <;> cases run

theorem parse_eq_error_of_read {settings : Settings}
    (refused : ∃ problem, read settings.maxDepth text = .error problem) :
    ∃ error, parse settings text = .error error := by
  obtain ⟨problem, refused⟩ := refused
  exact ⟨.refused text problem, by rw [parse, refused, Except.mapError]⟩

theorem ofTokens_eq_ok_iff {tokens : List Token} {lastColumn : Nat} {statement : Statement} :
    Statement.ofTokens limit tokens lastColumn = .ok statement ↔
      ∃ place, Place.run limit .start tokens = .ok place ∧ place.statement? = some statement := by
  constructor
  · intro made
    obtain ⟨place, ran, finished⟩ := exists_of_bind_eq_ok made
    refine ⟨place, ran, ?_⟩
    split at finished
    · rename_i atEnd
      cases finished
      exact atEnd
    · cases finished
  · rintro ⟨place, ran, atEnd⟩
    simp only [Statement.ofTokens, ran, atEnd, bind, Except.bind]

theorem read_eq_ok_iff :
    read limit text = .ok query ↔ ∃ tokens place statement, Token.scan text.toList = .ok tokens ∧
      Place.run limit .start tokens = .ok place ∧ place.statement? = some statement ∧
      ofStatement statement = .ok query := by
  constructor
  · intro run
    obtain ⟨statement, atText, built⟩ := exists_of_bind_eq_ok run
    unfold Statement.read at atText
    split at atText
    · cases atText
    · rename_i tokens scanned
      split at atText
      · cases atText
      · rename_i other whole
        cases atText
        obtain ⟨place, ran, atEnd⟩ := ofTokens_eq_ok_iff.mp whole
        exact ⟨tokens, place, statement, scanned, ran, atEnd, built⟩
  · rintro ⟨tokens, place, statement, scanned, ran, atEnd, built⟩
    have whole : Statement.ofTokens limit tokens (endColumn text) = .ok statement :=
      ofTokens_eq_ok_iff.mpr ⟨place, ran, atEnd⟩
    simp only [read, Statement.read, scanned, whole, bind, Except.bind, built]

theorem exists_place_of_read (run : read limit text = .ok query) :
    ∃ tokens place statement, Token.Scans text.toList (tokens.map Token.kind) ∧
      Place.run limit .start tokens = .ok place ∧ place.statement? = some statement ∧
      ofStatement statement = .ok query := by
  obtain ⟨tokens, place, statement, scanned, rest⟩ := read_eq_ok_iff.mp run
  exact ⟨tokens, place, statement, Token.scans_of_scanFrom scanned, rest⟩

/-- What the tokens of a text are read as can be written again. -/
theorem sound_of_run {tokens : List Token} {place : Place} {statement : Statement}
    (scans : Token.Scans text.toList (tokens.map Token.kind))
    (ran : Place.run limit .start tokens = .ok place)
    (atEnd : place.statement? = some statement) : statement.Sound limit := by
  have start : Place.start.Sound limit := trivial
  refine (start.run (fun token member => ?_) ran).statement atEnd
  exact scans.wellFormed token.kind (List.mem_map_of_mem member)

/-- A query that has been read can be written again, and its filter has the form of a built one.
The limit bounds the groups of the text; the alternatives and the operands of each add a node. -/
theorem built_of_read (run : read limit text = .ok query) :
    query.Writable ∧ (query.filter = .matchAll ∨ query.filter.Built (2 * limit + 2)) := by
  obtain ⟨tokens, place, statement, scans, ran, atEnd, built⟩ := exists_place_of_read run
  have sound := sound_of_run scans ran atEnd
  obtain ⟨atFilter, atOrder, _, atToken⟩ := ofStatement_eq_ok_iff.mp built
  have shape : query.filter = .matchAll ∨ query.filter.Built (2 * limit + 2) := by
    unfold Statement.filter at atFilter
    split at atFilter
    · rename_i node present
      exact Or.inr (sound.expression node present query.filter atFilter)
    · exact Or.inl (Except.ok.inj atFilter).symm
  refine ⟨⟨?_, ?_, ?_⟩, shape⟩
  · rcases shape with all | built
    · rw [all]
      exact fun comparison => List.not_mem_nil.elim
    · exact built.writable
  · rw [← atOrder]
    exact sound.order
  · rw [← atToken]
    exact sound.offset

end Query

end RecordQuery
