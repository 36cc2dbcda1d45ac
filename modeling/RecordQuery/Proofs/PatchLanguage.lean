import RecordQuery.Proofs.Patching

namespace RecordQuery

/-- The tokens that no list of assignments has: the one that begins an alternative, and those that
compare in another way than for equality. -/
def Patch.foreignKinds : List TokenKind :=
  [.keyword .or, .keyword .like, .keyword .isIn, .keyword .contains,
    .relation .ne, .relation .lt, .relation .le, .relation .gt, .relation .ge]

/-! ### Nodes that spell assignments -/

/-- Whether a test asks for equality. -/
def ConditionTest.IsEquation : ConditionTest → Prop
  | .relate relation _ => relation = .eq
  | _ => False

namespace Node

mutual

/-- Whether a node joins equations, and only by conjunctions. -/
def Assigns : Node → Prop
  | .leaf condition => condition.test.IsEquation
  | .group content => content.Assigns
  | .chain .and operands => AllAssign operands
  | .chain .or _ => False

def AllAssign : List Node → Prop
  | [] => True
  | operand :: rest => operand.Assigns ∧ AllAssign rest

end

variable {node : Node} {nodes : List Node} {filter : Filter}

theorem allAssign_iff : AllAssign nodes ↔ ∀ node ∈ nodes, node.Assigns := by
  induction nodes with
  | nil => simp [AllAssign]
  | cons node rest ih => rw [AllAssign, ih, List.forall_mem_cons]

theorem assigns_join_and : (join .and nodes).Assigns ↔ ∀ node ∈ nodes, node.Assigns := by
  match nodes with
  | [node] => exact List.forall_mem_singleton.symm
  | [] | first :: second :: rest => exact allAssign_iff

/-- Of two alternatives at most one would be carried out, so there may be only one. -/
theorem assigns_join_or : (join .or nodes).Assigns ↔ ∃ node, nodes = [node] ∧ node.Assigns := by
  match nodes with
  | [node] => simp [join]
  | [] | first :: second :: rest => simp [join, Assigns]

end Node

namespace Filter

theorem isSome_assignmentsOfAll?_iff {children : List Filter} :
    (assignmentsOfAll? children).isSome ↔ ∀ child ∈ children, child.assignments?.isSome := by
  induction children with
  | nil => simp [assignmentsOfAll?]
  | cons child rest ih =>
    rw [List.forall_mem_cons, ← ih, assignmentsOfAll?]
    cases child.assignments? <;> cases assignmentsOfAll? rest <;> simp

/-- A conjunction that moves up into another one takes its children along, and nothing is lost. -/
theorem forall_spliced_and_iff {filter : Filter} :
    (∀ child ∈ filter.spliced .and, child.assignments?.isSome) ↔ filter.assignments?.isSome := by
  match filter with
  | .leaf comparison => exact List.forall_mem_singleton
  | .node .or children => exact List.forall_mem_singleton
  | .node .and children => exact isSome_assignmentsOfAll?_iff.symm

end Filter

theorem ConditionTest.isSome_assignments?_iff {test : ConditionTest} {built : Test}
    (run : test.toTest = .ok built) (path : List String) :
    (Filter.leaf ⟨path, built⟩).assignments?.isSome ↔ test.IsEquation := by
  cases test with
  | relate relation literal =>
    obtain ⟨value, _, rfl⟩ := exists_of_map_eq_ok run
    cases relation <;> simp [Filter.assignments?, IsEquation]
  | like pattern column =>
    rw [toTest] at run
    split at run
    · cases run
      exact iff_of_false Bool.false_ne_true id
    · cases run
  | isIn literals =>
    obtain ⟨values, _, rfl⟩ := exists_of_map_eq_ok run
    exact iff_of_false Bool.false_ne_true id
  | contains text =>
    cases run
    exact iff_of_false Bool.false_ne_true id

mutual

/-- The filter of a node spells assignments if the node does, whatever groups and conjunctions are
dissolved on the way. -/
theorem Node.isSome_assignments?_iff (node : Node) (filter : Filter)
    (run : node.toFilter = .ok filter) : filter.assignments?.isSome ↔ node.Assigns := by
  match node with
  | .leaf condition =>
    obtain ⟨comparison, atCondition, rfl⟩ := exists_of_map_eq_ok run
    obtain ⟨built, atTest, rfl⟩ := exists_of_map_eq_ok atCondition
    exact ConditionTest.isSome_assignments?_iff atTest _
  | .group content =>
    rw [toFilter] at run
    exact Node.isSome_assignments?_iff content filter run
  | .chain .or operands =>
    obtain ⟨children, _, rfl⟩ := exists_of_map_eq_ok run
    exact iff_of_false Bool.false_ne_true id
  | .chain .and operands =>
    obtain ⟨children, whole, rfl⟩ := exists_of_map_eq_ok run
    obtain ⟨filters, each, rfl⟩ := buildOperands_eq_ok_iff.mp whole
    have atOperands := Node.forall_isSome_assignments?_iff operands filters each
    rw [Assigns, ← atOperands, Filter.assignments?, Filter.isSome_assignmentsOfAll?_iff,
      List.forall_mem_flatMap]
    exact forall₂_congr fun filter _ => Filter.forall_spliced_and_iff

theorem Node.forall_isSome_assignments?_iff (nodes : List Node) (filters : List Filter)
    (each : List.Forall₂ (fun node filter => node.toFilter = .ok filter) nodes filters) :
    (∀ filter ∈ filters, filter.assignments?.isSome) ↔ AllAssign nodes := by
  match nodes, filters, each with
  | [], [], .nil => simp [AllAssign]
  | node :: nodes, filter :: filters, .cons run each =>
    rw [List.forall_mem_cons, AllAssign, Node.isSome_assignments?_iff node filter run,
      Node.forall_isSome_assignments?_iff nodes filters each]

end

/-! ### The reader -/

namespace Level

variable {level : Level}

/-- Whether a level has one alternative so far, with operands that spell assignments. -/
def Assigns (level : Level) : Prop :=
  level.alternatives = [] ∧ ∀ operand ∈ level.operands, operand.Assigns

theorem assigns_empty : Level.empty.Assigns :=
  ⟨rfl, fun _ => List.not_mem_nil.elim⟩

theorem assigns_push {operand : Node} :
    (level.push operand).Assigns ↔ level.Assigns ∧ operand.Assigns := by
  simp only [Assigns, push, List.forall_mem_cons]
  tauto

theorem not_assigns_nextAlternative : ¬level.nextAlternative.Assigns :=
  fun assigns => List.cons_ne_nil _ _ assigns.1

theorem assigns_toNode : level.toNode.Assigns ↔ level.Assigns := by
  rw [toNode, Node.assigns_join_or, closed, List.reverse_cons]
  constructor
  · rintro ⟨node, single, assigns⟩
    have whole : level.alternatives.reverse ++ [Node.join .and level.operands.reverse] = [] ++ [node] :=
      single
    obtain ⟨noOther, same⟩ := List.append_inj' whole rfl
    obtain rfl := List.singleton_inj.mp same
    rw [Node.assigns_join_and] at assigns
    refine ⟨List.reverse_eq_nil_iff.mp noOther, fun operand member => ?_⟩
    exact assigns operand (List.mem_reverse.mpr member)
  · rintro ⟨noOther, assigns⟩
    refine ⟨_, by rw [noOther, List.reverse_nil, List.nil_append], Node.assigns_join_and.mpr ?_⟩
    exact fun operand member => assigns operand (List.mem_reverse.mp member)

end Level

namespace Levels

variable {levels : Levels}

def Assigns (levels : Levels) : Prop :=
  levels.inner.Assigns ∧ ∀ level ∈ levels.outer, level.Assigns

theorem assigns_enter : levels.enter.Assigns ↔ levels.Assigns := by
  rw [enter, Assigns, List.forall_mem_cons, Assigns]
  exact and_iff_right Level.assigns_empty

theorem assigns_pushLeaf {name : String} {test : ConditionTest} :
    (levels.pushLeaf name test).Assigns ↔ levels.Assigns ∧ test.IsEquation := by
  simp only [pushLeaf, push, Assigns, Level.assigns_push, Node.Assigns]
  tauto

theorem not_assigns_nextAlternative : ¬levels.nextAlternative.Assigns :=
  fun assigns => Level.not_assigns_nextAlternative assigns.1

theorem assigns_leave {left : Levels} (left? : levels.leave? = some left) :
    left.Assigns ↔ levels.Assigns := by
  obtain ⟨inner, outer⟩ := levels
  unfold leave? at left?
  split at left?
  · cases left?
  · rename_i level others atOuter
    cases left?
    obtain rfl : outer = level :: others := atOuter
    simp only [Assigns, Level.assigns_push, Node.Assigns, Level.assigns_toNode, List.forall_mem_cons]
    tauto

end Levels

def Statement.Assigns (read : Statement) : Prop :=
  ∀ node, read.expression? = some node → node.Assigns

namespace Place

variable {limit : Nat} {place reached : Place} {levels : Levels} {read : Statement}
  {keys : List SortKey} {kind : TokenKind}

/-- Whether what has been read up to a place spells assignments, and what has been begun there goes
on to spell one. -/
def Assigns : Place → Prop
  | .start => True
  | .operand levels => levels.Assigns
  | .operator levels _ => levels.Assigns
  | .related levels _ relation => levels.Assigns ∧ relation = .eq
  | .pattern .. => False
  | .element .. => False
  | .listStart .. => False
  | .listItem .. => False
  | .listNext .. => False
  | .operandEnd levels => levels.Assigns
  | .sortedBy read => read.Assigns
  | .sortField read _ => read.Assigns
  | .sortDirection read _ _ => read.Assigns
  | .sortKeyEnd read _ => read.Assigns
  | .limit read => read.Assigns
  | .limitEnd read => read.Assigns
  | .offset read => read.Assigns
  | .offsetEnd read => read.Assigns

theorem assigns_ofExpression (outermost : levels.depth = 0) :
    (ofExpression (some levels.inner.toNode)).Assigns ↔ levels.Assigns := by
  have noOuter : levels.outer = [] := List.length_eq_zero_iff.mp outermost
  simp [Statement.Assigns, ofExpression, Level.assigns_toNode, Levels.Assigns, noOuter]

/-- A place spells assignments after a token if it does before, and the token is not foreign. -/
def Carries (before : Prop) (kind : TokenKind) (reached : Place) : Prop :=
  reached.Assigns ↔ before ∧ kind ∉ Patch.foreignKinds

theorem carries_native {before : Prop} (native : kind ∉ Patch.foreignKinds)
    (same : reached.Assigns ↔ before) : Carries before kind reached :=
  same.trans (and_iff_left native).symm

theorem carries_foreign {before : Prop} (foreign : kind ∈ Patch.foreignKinds)
    (lost : ¬reached.Assigns) : Carries before kind reached :=
  iff_of_false lost fun native => native.2 foreign

theorem carries_of_clause? (next : clause? read kind = some reached) :
    Carries read.Assigns kind reached := by
  unfold clause? at next
  split at next
  case h_4 => cases next
  all_goals
    cases next
    exact carries_native (by decide) Iff.rfl

theorem carries_of_clauseAfterOrder? (next : clauseAfterOrder? read kind = some reached) :
    Carries read.Assigns kind reached := by
  unfold clauseAfterOrder? at next
  split at next
  case h_3 => cases next
  all_goals
    cases next
    exact carries_native (by decide) Iff.rfl

theorem carries_of_afterOperandStart? (next : afterOperandStart? limit levels kind = some reached) :
    Carries levels.Assigns kind reached := by
  unfold afterOperandStart? at next
  split at next
  · cases next
    exact carries_native (by simp [Patch.foreignKinds]) Iff.rfl
  · split at next
    · cases next
      exact carries_native (by decide) Levels.assigns_enter
    · cases next
  · cases next

theorem carries_of_afterOperator? {name : String}
    (next : afterOperator? levels name kind = some reached) :
    Carries levels.Assigns kind reached := by
  unfold afterOperator? at next
  split at next
  · rename_i relation
    cases next
    have native : relation = .eq ↔ TokenKind.relation relation ∉ Patch.foreignKinds := by
      cases relation <;> decide
    exact and_congr_right fun _ => native
  · cases next
    exact carries_foreign (by decide) id
  · cases next
    exact carries_foreign (by decide) id
  · cases next
    exact carries_foreign (by decide) id
  · cases next

theorem carries_of_afterOperandEnd? (next : afterOperandEnd? levels kind = some reached) :
    Carries levels.Assigns kind reached := by
  unfold afterOperandEnd? at next
  split at next
  · cases next
    exact carries_native (by decide) Iff.rfl
  · cases next
    exact carries_foreign (by decide) Levels.not_assigns_nextAlternative
  · obtain ⟨left, left?, rfl⟩ := Option.map_eq_some_iff.mp next
    exact carries_native (by decide) (Levels.assigns_leave left?)
  · split at next
    · rename_i outermost
      rw [← assigns_ofExpression outermost]
      exact carries_of_clause? next
    · cases next

theorem carries_of_afterSortKey? (next : afterSortKey? read keys kind = some reached) :
    Carries read.Assigns kind reached := by
  unfold afterSortKey? at next
  split at next
  · cases next
    exact carries_native (by decide) Iff.rfl
  · have carried : Carries (withOrder read keys).Assigns kind reached :=
      carries_of_clauseAfterOrder? next
    exact carried

theorem carries_of_afterSortField? {field : String}
    (next : afterSortField? read keys field kind = some reached) :
    Carries read.Assigns kind reached := by
  unfold afterSortField? at next
  split at next
  · cases next
    exact carries_native (by decide) Iff.rfl
  · cases next
    exact carries_native (by decide) Iff.rfl
  · exact carries_of_afterSortKey? next

theorem native_of_literal? {token : Token} {literal : Literal}
    (isLiteral : token.literal? = some literal) : token.kind ∉ Patch.foreignKinds := by
  unfold Token.literal? at isLiteral
  split at isLiteral
  case h_4 => cases isLiteral
  all_goals
    rename_i atKind
    rw [atKind]
    simp [Patch.foreignKinds]

/-- Every token that can stand somewhere keeps a list of assignments one if and only if the token
is not foreign. -/
theorem carries_of_next? {token : Token} (next : place.next? limit token = some reached) :
    Carries place.Assigns token.kind reached := by
  unfold next? at next
  split at next
  case h_1 =>
    rcases Option.or_eq_some_iff.mp next with clause | ⟨_, operand⟩
    · have nothing : (ofExpression none).Assigns := nofun
      have carried := carries_of_clause? clause
      rwa [eq_true nothing] at carried
    · have nothing : Levels.empty.Assigns := ⟨Level.assigns_empty, fun _ => List.not_mem_nil.elim⟩
      have carried := carries_of_afterOperandStart? operand
      rwa [eq_true nothing] at carried
  case h_2 => exact carries_of_afterOperandStart? next
  case h_3 => exact carries_of_afterOperator? next
  case h_4 =>
    obtain ⟨literal, isLiteral, rfl⟩ := Option.map_eq_some_iff.mp next
    exact carries_native (native_of_literal? isLiteral) Levels.assigns_pushLeaf
  case h_8 =>
    obtain ⟨literal, _, rfl⟩ := Option.map_eq_some_iff.mp next
    exact iff_of_false id And.left
  case h_11 => exact carries_of_afterOperandEnd? next
  case h_14 => exact carries_of_afterSortField? next
  case h_15 => exact carries_of_afterSortKey? next
  case h_19 => cases next
  -- a test that is no equation has begun before
  case h_5 | h_6 | h_10 =>
    cases next
    exact iff_of_false (fun assigns => (Levels.assigns_pushLeaf.mp assigns).2) And.left
  case h_7 | h_9 =>
    cases next
    exact iff_of_false id And.left
  -- within a clause the expression stays as it is
  case h_12 atKind | h_13 atKind | h_16 atKind | h_17 atKind | h_18 atKind =>
    cases next
    rw [atKind]
    exact carries_native (by simp [Patch.foreignKinds]) Iff.rfl

/-- What is read from some tokens is a list of assignments if and only if none of them is foreign. -/
theorem assigns_of_run {tokens : List Token} (ran : run limit place tokens = .ok reached) :
    reached.Assigns ↔ place.Assigns ∧ ∀ token ∈ tokens, token.kind ∉ Patch.foreignKinds := by
  induction tokens generalizing place with
  | nil =>
    cases ran
    simp
  | cons token rest ih =>
    obtain ⟨following, next, ran⟩ := exists_next_of_run ran
    have step : following.Assigns ↔ place.Assigns ∧ token.kind ∉ Patch.foreignKinds :=
      carries_of_next? next
    rw [ih ran, step, List.forall_mem_cons, and_assoc]

theorem assigns_of_statement? (atEnd : place.statement? = some read) :
    read.Assigns ↔ place.Assigns := by
  unfold statement? at atEnd
  split at atEnd
  · cases atEnd
    exact iff_of_true nofun trivial
  · split at atEnd
    · rename_i outermost
      cases atEnd
      exact assigns_ofExpression outermost
    · cases atEnd
  case h_7 => cases atEnd
  all_goals
    cases atEnd
    exact Iff.rfl

end Place

/-! ### Patches -/

namespace Query

variable {query : Query} {read : Statement}

theorem isSome_assignments?_of_statement (built : ofStatement read = .ok query) :
    query.filter.assignments?.isSome ↔ read.Assigns := by
  have atFilter := (ofStatement_eq_ok_iff.mp built).1
  rw [Statement.filter] at atFilter
  rw [Statement.Assigns]
  cases present : read.expression? with
  | none =>
    rw [present] at atFilter
    rw [← Except.ok.inj atFilter]
    exact iff_of_true rfl nofun
  | some node =>
    rw [present] at atFilter
    rw [Node.isSome_assignments?_iff node query.filter atFilter]
    simp

/-- The filter of a query spells assignments if and only if its text has no foreign token. -/
theorem isSome_assignments?_iff {limit : Nat} {text : String} {tokens : List Token}
    (run : Query.read limit text = .ok query) (scanned : Token.scan text.toList = .ok tokens) :
    query.filter.assignments?.isSome ↔ ∀ token ∈ tokens, token.kind ∉ Patch.foreignKinds := by
  obtain ⟨others, place, read, again, ran, atEnd, built⟩ := read_eq_ok_iff.mp run
  obtain rfl := Except.ok.inj (scanned.symm.trans again)
  rw [isSome_assignments?_of_statement built, Place.assigns_of_statement? atEnd,
    Place.assigns_of_run ran]
  exact and_iff_right trivial

end Query

namespace Patch

variable {settings : Settings} {text : String}

theorem parse_of_query {query : Query} (atText : Query.parse settings text = .ok query) :
    parse settings text =
      if query.filter.assignments?.isSome then .ok ⟨query, settings⟩
      else .error (.notAssignments text) := by
  simp only [parse, atText, bind, Except.bind]
  rfl

theorem message_notAssignments :
    (Error.notAssignments text).message = "Syntax error in query '" ++ text ++
      "': Set Expression can only contain And and assignment expression '='" := by
  have joined : "': " ++ "Set Expression can only contain And and assignment expression '='" =
      "': Set Expression can only contain And and assignment expression '='" := by decide
  rw [← joined]
  exact String.append_assoc

/-- A text is a patch if it is a query and has no foreign token. Otherwise the error is that of the
query, or says that the text is no list of assignments. -/
theorem parse_judges_tokens (settings : Settings) (text : String) :
    ((∃ patch, parse settings text = .ok patch) ↔
      (∃ query, Query.parse settings text = .ok query) ∧
        ∃ tokens, Token.scan text.toList = .ok tokens ∧
          ∀ token ∈ tokens, token.kind ∉ foreignKinds) ∧
    (∀ error, Query.parse settings text = .error error → parse settings text = .error error) ∧
    ∀ query tokens, Query.parse settings text = .ok query → Token.scan text.toList = .ok tokens →
      (∃ token ∈ tokens, token.kind ∈ foreignKinds) →
        ∃ error, parse settings text = .error error ∧ error.isSyntax = true ∧
          error.message = "Syntax error in query '" ++ text ++
            "': Set Expression can only contain And and assignment expression '='" := by
  refine ⟨⟨?_, ?_⟩, fun error refused => ?_, ?_⟩
  · rintro ⟨patch, run⟩
    obtain ⟨atText, _, spelt⟩ := parse_eq_ok_iff.mp run
    have read := Query.parse_eq_ok_iff.mp atText
    obtain ⟨tokens, _, _, scanned, _⟩ := Query.read_eq_ok_iff.mp read
    have native := (Query.isSome_assignments?_iff read scanned).mp (Option.isSome_of_eq_some spelt)
    exact ⟨⟨patch.query, atText⟩, tokens, scanned, native⟩
  · rintro ⟨⟨query, atText⟩, tokens, scanned, native⟩
    have read := Query.parse_eq_ok_iff.mp atText
    have spelt := (Query.isSome_assignments?_iff read scanned).mpr native
    exact ⟨⟨query, settings⟩, by rw [parse_of_query atText, if_pos spelt]⟩
  · rw [parse, refused]
    rfl
  · rintro query tokens atText scanned ⟨token, member, foreign⟩
    have read := Query.parse_eq_ok_iff.mp atText
    have notSpelt : ¬query.filter.assignments?.isSome := fun spelt =>
      (Query.isSome_assignments?_iff read scanned).mp spelt token member foreign
    refine ⟨.notAssignments text, ?_, rfl, message_notAssignments⟩
    rw [parse_of_query atText, if_neg notSpelt]

/-- Operators inside of strings and names do not count, and one that stands in a group does. -/
theorem parse_judges_tokens_quoted :
    let accepted := "(a = ' OR ' AND (b.LIKE = \"<\")) AND INN = 3 ORDER BY c LIMIT 1"
    let refused := "a = 1 AND ((b = 2) OR c = 3)"
    (∃ patch, parse .builtIn accepted = .ok patch) ∧
      (∃ error, parse .builtIn refused = .error error ∧ error.isSyntax = true) ∧
      ∃ error, Query.parse .builtIn "a = " = .error error ∧ parse .builtIn "a = " = .error error := by
  intro accepted refused
  refine ⟨?_, ?_, ?_⟩
  · obtain ⟨query, atText⟩ : ∃ query, Query.parse .builtIn accepted = .ok query :=
      ⟨_, by unfold accepted; cbv⟩
    obtain ⟨tokens, scanned, native⟩ : ∃ tokens, Token.scan accepted.toList = .ok tokens ∧
        ∀ token ∈ tokens, token.kind ∉ foreignKinds := ⟨_, by unfold accepted; cbv, by decide⟩
    exact (parse_judges_tokens .builtIn accepted).1.mpr ⟨⟨query, atText⟩, tokens, scanned, native⟩
  · obtain ⟨query, atText⟩ : ∃ query, Query.parse .builtIn refused = .ok query :=
      ⟨_, by unfold refused; cbv⟩
    obtain ⟨tokens, scanned, foreign⟩ : ∃ tokens, Token.scan refused.toList = .ok tokens ∧
        ∃ token ∈ tokens, token.kind ∈ foreignKinds := ⟨_, by unfold refused; cbv, by decide⟩
    obtain ⟨error, run, syntactic, _⟩ :=
      (parse_judges_tokens .builtIn refused).2.2 query tokens atText scanned foreign
    exact ⟨error, run, syntactic⟩
  · obtain ⟨error, missing⟩ : ∃ error, Query.parse .builtIn "a = " = .error error := ⟨_, by cbv⟩
    exact ⟨error, missing, (parse_judges_tokens .builtIn "a = ").2.1 error missing⟩

end Patch

end RecordQuery
