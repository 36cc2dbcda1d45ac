import RecordQuery.Proofs.Building
import RecordQuery.Statement.Reader

namespace RecordQuery

namespace Place

variable {limit : Nat} {place : Place} {kind : TokenKind} {front back kinds : List TokenKind}
  {goal result : Place → Prop}

/-- Tokens of the given kinds lead from a place to one with a property, wherever they stand in
the text. -/
def Reads (limit : Nat) (place : Place) (kinds : List TokenKind) (goal : Place → Prop) : Prop :=
  ∀ tokens : List Token, tokens.map Token.kind = kinds →
    ∃ reached, run limit place tokens = .ok reached ∧ goal reached

/-- Tokens of the given kinds lead nowhere from a place. -/
def Refuses (limit : Nat) (place : Place) (kinds : List TokenKind) : Prop :=
  ∀ tokens : List Token, tokens.map Token.kind = kinds →
    ∃ fault, run limit place tokens = .error fault

theorem run_append (front back : List Token) :
    run limit place (front ++ back) =
      (run limit place front).bind fun reached => run limit reached back := by
  induction front generalizing place with
  | nil => rfl
  | cons token rest ih =>
    rw [List.cons_append, run, run]
    cases place.next? limit token with
    | none => rfl
    | some reached => exact ih

theorem Reads.nil (holds : goal place) : Reads limit place [] goal := by
  intro tokens same
  obtain rfl := List.map_eq_nil_iff.mp same
  exact ⟨place, rfl, holds⟩

theorem Reads.cons (step : ∀ column, ∃ reached,
    place.next? limit ⟨kind, column⟩ = some reached ∧ Reads limit reached kinds goal) :
    Reads limit place (kind :: kinds) goal := by
  intro tokens same
  obtain ⟨⟨_, column⟩, rest, rfl, rfl, others⟩ := List.map_eq_cons_iff.mp same
  obtain ⟨reached, next, reads⟩ := step column
  obtain ⟨final, ran, holds⟩ := reads rest others
  refine ⟨final, ?_, holds⟩
  rw [run, next]
  exact ran

theorem Reads.append (first : Reads limit place front goal)
    (next : ∀ reached, goal reached → Reads limit reached back result) :
    Reads limit place (front ++ back) result := by
  intro tokens same
  obtain ⟨left, right, rfl, atLeft, atRight⟩ := List.map_eq_append_iff.mp same
  obtain ⟨reached, ran, holds⟩ := first left atLeft
  obtain ⟨final, others, outcome⟩ := next reached holds right atRight
  refine ⟨final, ?_, outcome⟩
  rw [run_append, ran]
  exact others

theorem Reads.mono (reads : Reads limit place kinds goal)
    (weaker : ∀ reached, goal reached → result reached) : Reads limit place kinds result := by
  intro tokens same
  obtain ⟨reached, ran, holds⟩ := reads tokens same
  exact ⟨reached, ran, weaker reached holds⟩

theorem Reads.append_refuses (first : Reads limit place front goal)
    (next : ∀ reached, goal reached → Refuses limit reached back) :
    Refuses limit place (front ++ back) := by
  intro tokens same
  obtain ⟨left, right, rfl, atLeft, atRight⟩ := List.map_eq_append_iff.mp same
  obtain ⟨reached, ran, holds⟩ := first left atLeft
  obtain ⟨fault, refused⟩ := next reached holds right atRight
  refine ⟨fault, ?_⟩
  rw [run_append, ran]
  exact refused

theorem Refuses.append (first : Refuses limit place front) (back : List TokenKind) :
    Refuses limit place (front ++ back) := by
  intro tokens same
  obtain ⟨left, right, rfl, atLeft, _⟩ := List.map_eq_append_iff.mp same
  obtain ⟨fault, refused⟩ := first left atLeft
  refine ⟨fault, ?_⟩
  rw [run_append, refused]
  rfl

theorem Refuses.of_next_eq_none (refused : ∀ column, place.next? limit ⟨kind, column⟩ = none) :
    Refuses limit place (kind :: kinds) := by
  intro tokens same
  obtain ⟨⟨kind, column⟩, rest, rfl, rfl, _⟩ := List.map_eq_cons_iff.mp same
  refine ⟨(column, place.refuse limit (some kind)), ?_⟩
  rw [run, refused column]

theorem Refuses.cons (step : ∀ column, ∃ reached,
    place.next? limit ⟨kind, column⟩ = some reached ∧ Refuses limit reached kinds) :
    Refuses limit place (kind :: kinds) := by
  intro tokens same
  obtain ⟨⟨_, column⟩, rest, rfl, rfl, others⟩ := List.map_eq_cons_iff.mp same
  obtain ⟨reached, next, refuses⟩ := step column
  obtain ⟨fault, refused⟩ := refuses rest others
  refine ⟨fault, ?_⟩
  rw [run, next]
  exact refused

/-- Whether tokens begin as an operand does, and not as a clause. -/
def BeginsOperand (kinds : List TokenKind) : Prop :=
  ∃ kind rest, kinds = kind :: rest ∧ ∀ read, clause? read kind = none

/-- Before a whole expression there is no difference between the start and any other operand. -/
theorem run_start (begins : BeginsOperand kinds) {tokens : List Token}
    (same : tokens.map Token.kind = kinds) {reached : Place} :
    run limit .start tokens = .ok reached ↔ run limit (.operand .empty) tokens = .ok reached := by
  obtain ⟨kind, rest, rfl, noClause⟩ := begins
  obtain ⟨token, rest, rfl, rfl, _⟩ := List.map_eq_cons_iff.mp same
  have atStart : start.next? limit token = (operand .empty).next? limit token := by
    simp only [next?, noClause, Option.none_or]
  rw [run, run, atStart]
  cases (operand .empty).next? limit token with
  | none => constructor <;> intro ran <;> cases ran
  | some step => rfl

theorem Reads.start (begins : BeginsOperand kinds)
    (reads : Reads limit (.operand .empty) kinds goal) : Reads limit .start kinds goal := by
  intro tokens same
  obtain ⟨reached, ran, holds⟩ := reads tokens same
  exact ⟨reached, (run_start begins same).mpr ran, holds⟩

theorem Refuses.start (begins : BeginsOperand kinds)
    (refuses : Refuses limit (.operand .empty) kinds) : Refuses limit .start kinds := by
  intro tokens same
  obtain ⟨fault, refused⟩ := refuses tokens same
  cases ran : run limit .start tokens with
  | error fault => exact ⟨fault, rfl⟩
  | ok reached =>
    rw [(run_start begins same).mp ran] at refused
    cases refused

end Place

namespace Scalar

/-- What a literal is read as. -/
theorem literal_of_kind {literal : Scalar} (column : Nat) :
    ∃ read, Token.literal? ⟨literal.kind, column⟩ = some read ∧ read.toScalar = .ok literal := by
  cases literal with
  | bool value => exact ⟨.boolean value, rfl, rfl⟩
  | text value => exact ⟨.text value, rfl, rfl⟩
  | int value =>
    refine ⟨.integer (.ofInt value.toInt) column, rfl, ?_⟩
    rw [Literal.toScalar, Numeral.toWord_ofInt]
    rfl

end Scalar

namespace Place

variable {limit : Nat} {levels : Levels} {name : String}

/-- The items of a list that is not empty, from the place behind its bracket on. -/
theorem reads_items {literals : List Scalar} (nonempty : literals ≠ []) (items : List Literal) :
    Reads limit (.listItem levels name items)
      ([.punctuation .comma].intercalate (literals.map fun literal => [literal.kind]))
      fun place => ∃ read, Literal.toScalars read = .ok literals ∧
        place = .listNext levels name (read.reverse ++ items) := by
  induction literals generalizing items with
  | nil => exact absurd rfl nonempty
  | cons literal rest ih =>
    have first : Reads limit (.listItem levels name items) [literal.kind] fun place =>
        ∃ read, read.toScalar = .ok literal ∧ place = .listNext levels name (read :: items) := by
      refine .cons fun column => ?_
      obtain ⟨read, isLiteral, value⟩ := literal.literal_of_kind column
      refine ⟨_, ?_, .nil ⟨read, value, rfl⟩⟩
      simp only [next?, isLiteral, Option.map_some]
    cases rest with
    | nil =>
      rw [List.map_singleton, List.intercalate_singleton]
      refine first.mono ?_
      rintro _ ⟨read, value, rfl⟩
      refine ⟨[read], ?_, rfl⟩
      rw [Literal.toScalars, value]
      rfl
    | cons next rest =>
      rw [List.map_cons, List.map_cons, List.intercalate_cons_cons, List.append_assoc]
      refine first.append ?_
      rintro _ ⟨read, value, rfl⟩
      refine .cons fun column => ⟨_, rfl, ?_⟩
      refine (ih (List.cons_ne_nil _ _) (read :: items)).mono ?_
      rintro _ ⟨others, values, rfl⟩
      refine ⟨read :: others, ?_, ?_⟩
      · rw [Literal.toScalars, value, values]
        rfl
      · rw [List.reverse_cons, List.append_assoc, List.singleton_append]

/-- The place behind an operand that stands for a filter. -/
def Behind (levels : Levels) (filter : Filter) (place : Place) : Prop :=
  ∃ node, node.toFilter = .ok filter ∧ place = .operandEnd (levels.push node)

/-- A condition has been read whose test is the one that was written. -/
theorem behind_condition {test : ConditionTest} {wanted : Test} (same : test.toTest = .ok wanted) :
    Behind levels (.leaf ⟨pathOfName name, wanted⟩)
      (.operandEnd (levels.push (.leaf ⟨name, test⟩))) := by
  refine ⟨.leaf ⟨name, test⟩, ?_, rfl⟩
  rw [Node.toFilter, Condition.toComparison, same]
  rfl

/-- The operator and the literal of a test, behind the name of its attribute. -/
theorem reads_test {test : Test} (writable : test.Writable) :
    Reads limit (.operator levels name) test.kinds
      (Behind levels (.leaf ⟨pathOfName name, test⟩)) := by
  cases test with
  | relate relation literal =>
    refine .cons fun _ => ⟨.related levels name relation, rfl, .cons fun column => ?_⟩
    obtain ⟨read, isLiteral, value⟩ := literal.literal_of_kind column
    refine ⟨.operandEnd (levels.pushLeaf name (.relate relation read)), ?_, .nil ?_⟩
    · simp only [next?, isLiteral, Option.map_some]
    · refine behind_condition ?_
      rw [ConditionTest.toTest, value]
      rfl
  | like pattern =>
    refine .cons fun _ => ⟨.pattern levels name, rfl, .cons fun column => ⟨_, rfl, .nil ?_⟩⟩
    refine behind_condition ?_
    simp only [ConditionTest.toTest, writable.2]
  | isIn literals =>
    refine .cons fun _ => ⟨.listStart levels name, rfl, .cons fun _ => ⟨_, rfl, ?_⟩⟩
    refine (reads_items writable.1 []).append ?_
    rintro _ ⟨read, values, rfl⟩
    refine .cons fun _ => ⟨_, rfl, .nil (behind_condition ?_)⟩
    rw [ConditionTest.toTest, List.append_nil, List.reverse_reverse, values]
    rfl
  | contains text =>
    exact .cons fun _ => ⟨.element levels name, rfl, .cons fun _ =>
      ⟨_, rfl, .nil (behind_condition rfl)⟩⟩

theorem reads_comparison {comparison : Comparison} (writable : comparison.Writable) :
    Reads limit (.operand levels) comparison.kinds (Behind levels (.leaf comparison)) := by
  obtain ⟨path, test⟩ := comparison
  obtain ⟨⟨name, _, rfl⟩, testWritable⟩ := writable
  rw [Comparison.kinds, dotted_pathOfName]
  exact .cons fun _ => ⟨.operator levels name, rfl, reads_test testWritable⟩

end Place

namespace Level

/-- Goes on behind an operand: with the same alternative, or with another one. -/
def next (connective : Connective) (level : Level) : Level :=
  match connective with
  | .and => level
  | .or => level.nextAlternative

/-- Adds operands that have a connective between them. -/
def pushAll (connective : Connective) : Level → List Node → Level
  | level, [] => level
  | level, [operand] => level.push operand
  | level, operand :: rest => pushAll connective ((level.push operand).next connective) rest

theorem pushAll_and (level : Level) (nodes : List Node) :
    pushAll .and level nodes = ⟨level.alternatives, nodes.reverse ++ level.operands⟩ := by
  induction nodes generalizing level with
  | nil => rfl
  | cons operand rest ih =>
    cases rest with
    | nil => rfl
    | cons following rest =>
      rw [pushAll, ih]
      · simp [next, push]
      · exact fun empty => nomatch empty

theorem closed_pushAll_or {nodes : List Node} (nonempty : nodes ≠ []) (alternatives : List Node) :
    (pushAll .or ⟨alternatives, []⟩ nodes).closed = nodes.reverse ++ alternatives := by
  induction nodes generalizing alternatives with
  | nil => exact absurd rfl nonempty
  | cons operand rest ih =>
    cases rest with
    | nil => rfl
    | cons following rest =>
      rw [pushAll]
      · have later := ih (List.cons_ne_nil _ _) (operand :: alternatives)
        rw [List.reverse_cons, List.append_assoc]
        exact later
      · exact fun empty => nomatch empty

/-- A level of operands with one connective between them amounts to their join. -/
theorem toNode_pushAll (connective : Connective) {nodes : List Node} (nonempty : nodes ≠ []) :
    (pushAll connective .empty nodes).toNode = Node.join connective nodes := by
  cases connective with
  | and =>
    rw [pushAll_and]
    simp only [toNode, closed, empty, List.append_nil, List.reverse_reverse, List.reverse_singleton]
    rfl
  | or =>
    rw [toNode, empty, closed_pushAll_or nonempty, List.append_nil, List.reverse_reverse]

end Level

namespace Place

variable {limit : Nat} {children : List Filter}

theorem next_connective (connective : Connective) (level : Level) (outer : List Level) (column : Nat) :
    (operandEnd ⟨level, outer⟩).next? limit ⟨.keyword connective.keyword, column⟩ =
      some (.operand ⟨level.next connective, outer⟩) := by
  cases connective <;> rfl

/-- The children of a node with the connective between them. -/
theorem reads_children (connective : Connective) {outer : List Level} (nonempty : children ≠ [])
    (each : ∀ child ∈ children, ∀ level,
      Reads limit (.operand ⟨level, outer⟩) (child.kinds true)
        (Behind ⟨level, outer⟩ child.regrouped)) (level : Level) :
    Reads limit (.operand ⟨level, outer⟩)
      ([.keyword connective.keyword].intercalate (Filter.kindsOfAll children)) fun place =>
        ∃ nodes, List.Forall₂ (fun node filter => node.toFilter = .ok filter) nodes
            (children.map Filter.regrouped) ∧
          place = .operandEnd ⟨level.pushAll connective nodes, outer⟩ := by
  induction children generalizing level with
  | nil => exact absurd rfl nonempty
  | cons child rest ih =>
    have first := each child List.mem_cons_self level
    cases rest with
    | nil =>
      rw [Filter.kindsOfAll, Filter.kindsOfAll, List.intercalate_singleton]
      refine first.mono ?_
      rintro _ ⟨node, built, rfl⟩
      exact ⟨[node], .cons built .nil, rfl⟩
    | cons following rest =>
      rw [Filter.kindsOfAll, Filter.kindsOfAll, List.intercalate_cons_cons, List.append_assoc]
      refine first.append ?_
      rintro _ ⟨node, built, rfl⟩
      refine .cons fun column => ⟨_, next_connective connective _ _ column, ?_⟩
      have later := ih (List.cons_ne_nil _ _)
        (fun other member => each other (List.mem_cons_of_mem child member))
        ((level.push node).next connective)
      refine later.mono ?_
      rintro _ ⟨nodes, others, rfl⟩
      refine ⟨node :: nodes, .cons built others, ?_⟩
      rw [Level.pushAll]
      rintro rfl
      cases others

/-- The nodes of children amount to the filter that their parent is regrouped to. -/
theorem toFilter_pushAll {connective : Connective} {nodes : List Node} (nonempty : children ≠ [])
    (full : ∀ child ∈ children, child.Full)
    (built : List.Forall₂ (fun node filter => node.toFilter = .ok filter) nodes
      (children.map Filter.regrouped)) :
    (Level.pushAll connective .empty nodes).toNode.toFilter =
      .ok (Filter.node connective children).regrouped := by
  have someNode : nodes ≠ [] := by
    rintro rfl
    exact nonempty (List.map_eq_nil_iff.mp (List.forall₂_nil_left_iff.mp built))
  rw [Level.toNode_pushAll connective someNode, Filter.regrouped_node]
  refine Node.toFilter_join built ?_
  intro filter member
  obtain ⟨child, inChildren, rfl⟩ := List.mem_map.mp member
  exact Filter.normal_regrouped (full child inChildren)

/-- A filter without empty nodes is read as an operand if its nodes fit into the limit together
with the groups that are open. -/
theorem reads_operand {filter : Filter} (full : filter.Full) (writable : filter.Writable)
    {levels : Levels} (within : levels.depth + filter.depth ≤ limit) :
    Reads limit (.operand levels) (filter.kinds true) (Behind levels filter.regrouped) := by
  induction filter using Filter.tree_induction generalizing levels with
  | leaf comparison =>
    exact reads_comparison (writable comparison (by simp [Filter.comparisons]))
  | node connective children ih =>
    obtain ⟨nonempty, fullChildren⟩ := Filter.full_node_iff.mp full
    have room : levels.depth + 1 ≤ limit := by
      rw [Filter.depth] at within
      omega
    refine .cons fun column => ⟨.operand levels.enter, ?_, ?_⟩
    · simp only [next?, afterOperandStart?, if_pos room]
    · refine (reads_children connective nonempty ?_ .empty).append ?_
      · intro child member level
        refine ih child member (fullChildren child member) (writable.child member) ?_
        have deeper : child.depth + 1 ≤ (Filter.node connective children).depth :=
          Filter.depth_child member
        simp only [Levels.depth, List.length_cons] at within ⊢
        omega
      · rintro _ ⟨nodes, built, rfl⟩
        refine .cons fun _ => ⟨_, rfl, .nil ⟨.group _, ?_, rfl⟩⟩
        rw [Node.toFilter]
        exact toFilter_pushAll nonempty fullChildren built

/-- The children of a node are refused if one of them is and all those that fit are read. -/
theorem refuses_children (connective : Connective) {outer : List Level}
    (full : ∀ child ∈ children, child.Full) (writable : ∀ child ∈ children, child.Writable)
    {deep : Filter} (member : deep ∈ children)
    (tooDeep : ∀ child ∈ children, limit < outer.length + child.depth → ∀ level,
      Refuses limit (.operand ⟨level, outer⟩) (child.kinds true))
    (beyond : limit < outer.length + deep.depth) (level : Level) :
    Refuses limit (.operand ⟨level, outer⟩)
      ([.keyword connective.keyword].intercalate (Filter.kindsOfAll children)) := by
  -- the children before the first one that does not fit are read, so the run gets to it
  induction children generalizing level with
  | nil => cases member
  | cons child rest ih =>
    by_cases exceeds : limit < outer.length + child.depth
    · have refused := tooDeep child List.mem_cons_self exceeds level
      cases rest with
      | nil => rwa [Filter.kindsOfAll, Filter.kindsOfAll, List.intercalate_singleton]
      | cons following rest =>
        rw [Filter.kindsOfAll, Filter.kindsOfAll, List.intercalate_cons_cons, List.append_assoc]
        exact refused.append _
    · have later : deep ∈ rest := by
        rcases List.mem_cons.mp member with rfl | later
        · exact absurd beyond exceeds
        · exact later
      obtain ⟨following, others, rfl⟩ := List.exists_cons_of_ne_nil (List.ne_nil_of_mem later)
      rw [Filter.kindsOfAll, Filter.kindsOfAll, List.intercalate_cons_cons, List.append_assoc]
      have within : (Levels.mk level outer).depth + child.depth ≤ limit := Nat.le_of_not_lt exceeds
      have first := reads_operand (full child List.mem_cons_self)
        (writable child List.mem_cons_self) within
      refine first.append_refuses ?_
      rintro _ ⟨node, _, rfl⟩
      refine .cons fun column => ⟨_, next_connective connective _ _ column, ?_⟩
      exact ih (fun other inRest => full other (List.mem_cons_of_mem child inRest))
        (fun other inRest => writable other (List.mem_cons_of_mem child inRest)) later
        (fun other inRest => tooDeep other (List.mem_cons_of_mem child inRest)) _

/-- A filter without empty nodes is refused as an operand if its nodes do not fit into the limit
together with the groups that are open. -/
theorem refuses_operand {filter : Filter} (full : filter.Full) (writable : filter.Writable)
    {levels : Levels} (opened : levels.depth ≤ limit) (beyond : limit < levels.depth + filter.depth) :
    Refuses limit (.operand levels) (filter.kinds true) := by
  induction filter using Filter.tree_induction generalizing levels with
  | leaf comparison =>
    rw [Filter.depth] at beyond
    omega
  | node connective children ih =>
    obtain ⟨nonempty, fullChildren⟩ := Filter.full_node_iff.mp full
    by_cases room : levels.depth + 1 ≤ limit
    · refine .cons fun column => ⟨.operand levels.enter, ?_, ?_⟩
      · simp only [next?, afterOperandStart?, if_pos room]
      · obtain ⟨deep, member, atDeep⟩ := Filter.exists_depth_child connective nonempty
        refine (refuses_children connective fullChildren
          (fun child inChildren => writable.child inChildren) member ?_ ?_ .empty).append _
        · intro child inChildren exceeds level
          exact ih child inChildren (fullChildren child inChildren) (writable.child inChildren)
            room exceeds
        · rw [← atDeep] at beyond
          simp only [Levels.depth, List.length_cons] at beyond ⊢
          omega
    · refine .of_next_eq_none fun column => ?_
      simp only [next?, afterOperandStart?, if_neg room]

/-- Any clause may begin at the start. -/
theorem next_clause_start {word : Keyword} (member : word ∈ [Keyword.order, .limit, .offset])
    (column : Nat) :
    start.next? limit ⟨.keyword word, column⟩ = clause? (ofExpression none) (.keyword word) := by
  simp only [List.mem_cons, List.not_mem_nil, or_false] at member
  rcases member with rfl | rfl | rfl <;> rfl

/-- Any clause may begin behind an expression that is in no group. -/
theorem next_clause_operandEnd (level : Level) {word : Keyword}
    (member : word ∈ [Keyword.order, .limit, .offset]) (column : Nat) :
    (operandEnd ⟨level, []⟩).next? limit ⟨.keyword word, column⟩ =
      clause? (ofExpression (some level.toNode)) (.keyword word) := by
  simp only [List.mem_cons, List.not_mem_nil, or_false] at member
  rcases member with rfl | rfl | rfl <;> rfl

section Clauses

variable {place : Place} {read : Statement}

theorem reads_limitClause (numeral : Numeral)
    (begins : ∀ column, place.next? limit ⟨.keyword .limit, column⟩ = clause? read (.keyword .limit)) :
    Reads limit place [.keyword .limit, .integer numeral] fun reached =>
      ∃ column, reached = .limitEnd { read with limit? := some (numeral, column) } :=
  .cons fun column => ⟨.limit read, begins column, .cons fun column => ⟨_, rfl, .nil ⟨column, rfl⟩⟩⟩

theorem reads_offsetClause (text : QuotedText)
    (begins : ∀ column, place.next? limit ⟨.keyword .offset, column⟩ = clause? read (.keyword .offset)) :
    Reads limit place [.keyword .offset, .text text] fun reached =>
      reached = .offsetEnd { read with offset? := some text.content } :=
  .cons fun column => ⟨.offset read, begins column, .cons fun _ => ⟨_, rfl, .nil rfl⟩⟩

end Clauses

end Place

end RecordQuery
