import RecordQuery.Proofs.Building

namespace RecordQuery.Node

/-- An expression without the parentheses around the whole of it. -/
def bare : Node → Node
  | .group content => content.bare
  | node => node

mutual

/-- The filter of an expression by recursion. An operand that amounts to a node with the connective
around it gives way to the children of that node. -/
def flattened : Node → Except Problem Filter
  | .leaf condition => condition.toComparison.map .leaf
  | .group content => content.flattened
  | .chain connective operands => (flattenedAll connective operands).map (.node connective)

def flattenedAll (connective : Connective) : List Node → Except Problem (List Filter)
  | [] => .ok []
  | operand :: rest => do
    let filter ← operand.flattened
    let others ← flattenedAll connective rest
    return filter.spliced connective ++ others

end

mutual

/-- The runs that build the filter of an expression, each with what it ends with. -/
inductive Builds : Node → Except Problem Filter → Prop
  | leaf (condition : Condition) : Builds (.leaf condition) (condition.toComparison.map .leaf)
  | group {content result} : Builds content.bare result → Builds (.group content) result
  | chain {connective operands result} : Collects connective [] operands.reverse result →
      Builds (.chain connective operands) (result.map (.node connective))

/-- The runs of the loop that collects the children of a node. The operands that are pending make a
stack with the next one at the end of the list. Without its parentheses it gives way to its own operands
if it has the connective of the node. Otherwise it is built and becomes one child, or its problem ends
the run. -/
inductive Collects : Connective → List Filter → List Node → Except Problem (List Filter) → Prop
  | done {connective children} : Collects connective children [] (.ok children)
  | inlined {connective children stack node operands result} :
      node.bare = .chain connective operands →
      Collects connective children (stack ++ operands.reverse) result →
      Collects connective children (stack ++ [node]) result
  | built {connective children stack node filter result} :
      (∀ operands, node.bare ≠ .chain connective operands) → Builds node.bare (.ok filter) →
      Collects connective (children ++ [filter]) stack result →
      Collects connective children (stack ++ [node]) result
  | refused {connective children stack node problem} :
      (∀ operands, node.bare ≠ .chain connective operands) → Builds node.bare (.error problem) →
      Collects connective children (stack ++ [node]) (.error problem)

end

section

variable {connective : Connective} {node : Node} {pending : List Node}

/-! ### One operand of the loop -/

theorem weight_bare_le (node : Node) : node.bare.weight ≤ node.weight := by
  fun_induction bare node with
  | case1 content ih =>
    rw [weight]
    omega
  | case2 => exact Nat.le_refl _

theorem weight_pos (node : Node) : 0 < node.weight := by
  cases node <;> simp only [weight] <;> omega

theorem bare_ne_group (node content : Node) : node.bare ≠ .group content := by
  fun_induction bare node with
  | case1 _ ih => exact ih
  | case2 node other => exact other content

theorem toFilter_bare (node : Node) : node.bare.toFilter = node.toFilter := by
  fun_induction bare node with
  | case1 content ih => rw [ih, toFilter]
  | case2 => rfl

theorem buildOperands_bare (connective : Connective) (node : Node) (pending : List Node) :
    buildOperands connective (node :: pending) = buildOperands connective (node.bare :: pending) := by
  rw [buildOperands_cons, buildOperands_cons, toFilter_bare]

/-- An operand with the connective of the node gives way to its own operands. -/
theorem buildOperands_inlined {operands : List Node} (same : node.bare = .chain connective operands) :
    buildOperands connective (node :: pending) = buildOperands connective (operands ++ pending) := by
  rw [buildOperands_bare, same, buildOperands, if_pos rfl]

/-- Any other operand becomes one child. -/
theorem buildOperands_built (other : ∀ operands, node.bare ≠ .chain connective operands) :
    buildOperands connective (node :: pending) = do
      let filter ← node.bare.toFilter
      let others ← buildOperands connective pending
      return filter :: others := by
  rw [buildOperands_bare]
  cases atBare : node.bare with
  | leaf condition =>
    rw [buildOperands, toFilter]
    cases condition.toComparison <;> rfl
  | group content => exact absurd atBare (node.bare_ne_group content)
  | chain inner operands =>
    have different : inner ≠ connective := by
      rintro rfl
      exact other operands atBare
    rw [buildOperands, if_neg different, toFilter]
    cases buildOperands inner operands <;> rfl

end

/-! ### Runs -/

mutual

/-- A run that comes to its end gives the filter. -/
theorem Builds.eq_toFilter {node : Node} {result : Except Problem Filter} :
    Builds node result → result = node.toFilter
  | .leaf condition => by rw [toFilter]
  | .group run => by rw [run.eq_toFilter, toFilter_bare, toFilter]
  | .chain run => by
    rw [run.eq_append, List.reverse_reverse, toFilter]
    cases buildOperands _ _ <;> rfl

theorem Collects.eq_append {connective : Connective} {children : List Filter} {stack : List Node}
    {result : Except Problem (List Filter)} :
    Collects connective children stack result →
      result = (buildOperands connective stack.reverse).map (children ++ ·)
  | .done => by
    rw [List.reverse_nil, buildOperands, Except.map, List.append_nil]
  | .inlined same run => by
    rw [run.eq_append, List.reverse_append, List.reverse_reverse, List.reverse_append,
      List.reverse_singleton, List.singleton_append, buildOperands_inlined same]
  | .built other first run => by
    rw [run.eq_append, List.reverse_append, List.reverse_singleton, List.singleton_append,
      buildOperands_built other, ← first.eq_toFilter]
    cases buildOperands connective _ with
    | error problem => rfl
    | ok others => exact congrArg Except.ok (List.append_assoc ..)
  | .refused other first => by
    rw [List.reverse_append, List.reverse_singleton, List.singleton_append,
      buildOperands_built other, ← first.eq_toFilter]
    rfl

end

mutual

/-- Every expression has a run. -/
theorem builds_toFilter (node : Node) : Builds node node.toFilter := by
  match node with
  | .leaf condition =>
    rw [toFilter]
    exact .leaf condition
  | .group content =>
    rw [toFilter, ← toFilter_bare]
    exact .group (builds_toFilter content.bare)
  | .chain connective operands =>
    have run := collects_buildOperands connective [] operands
    rw [toFilter]
    cases built : buildOperands connective operands with
    | error problem =>
      rw [built] at run
      exact .chain run
    | ok children =>
      rw [built] at run
      exact .chain run
termination_by (node.weight, 0)
decreasing_by
  · have within := content.weight_bare_le
    exact Prod.Lex.left _ _ (by simp only [weight]; omega)
  · exact Prod.Lex.left _ _ (by simp only [weight]; omega)

/-- The loop comes to its end, whatever is pending: each round takes a node or its parentheses away. -/
theorem collects_buildOperands (connective : Connective) (children : List Filter)
    (pending : List Node) :
    Collects connective children pending.reverse
      ((buildOperands connective pending).map (children ++ ·)) := by
  match pending with
  | [] =>
    rw [buildOperands, Except.map, List.append_nil]
    exact .done
  | node :: rest =>
    rw [List.reverse_cons]
    by_cases inner : ∃ operands, node.bare = .chain connective operands
    · obtain ⟨operands, same⟩ := inner
      have run := collects_buildOperands connective children (operands ++ rest)
      rw [List.reverse_append] at run
      rw [buildOperands_inlined same]
      exact .inlined same run
    · have other := not_exists.mp inner
      have first := builds_toFilter node.bare
      rw [buildOperands_built other]
      cases built : node.bare.toFilter with
      | error problem =>
        rw [built] at first
        exact .refused other first
      | ok filter =>
        rw [built] at first
        have run := collects_buildOperands connective (children ++ [filter]) rest
        refine .built other first ?_
        cases later : buildOperands connective rest with
        | error problem =>
          rw [later] at run
          exact run
        | ok others =>
          rw [later] at run
          simpa [Except.map, bind, Except.bind, pure, Except.pure] using run
termination_by (weightOfAll pending, 1)
decreasing_by
  · have within := node.weight_bare_le
    rw [same, weight] at within
    exact Prod.Lex.left _ _ (by simp only [weightOfAll, weightOfAll_append]; omega)
  · have within := node.weight_bare_le
    simp only [weightOfAll]
    omega
  · have positive := node.weight_pos
    exact Prod.Lex.left _ _ (by simp only [weightOfAll]; omega)

end

mutual

/-- Building with pending operands is building by recursion. -/
theorem toFilter_eq_flattened (node : Node) : node.toFilter = node.flattened := by
  match node with
  | .leaf condition => rw [toFilter, flattened]
  | .group content => rw [toFilter, flattened, toFilter_eq_flattened content]
  | .chain connective operands =>
    rw [toFilter, flattened, buildOperands_eq_flattenedAll connective operands]

theorem buildOperands_eq_flattenedAll (connective : Connective) (nodes : List Node) :
    buildOperands connective nodes = flattenedAll connective nodes := by
  match nodes with
  | [] => rw [buildOperands, flattenedAll]
  | node :: rest =>
    rw [buildOperands_cons, flattenedAll, toFilter_eq_flattened node,
      buildOperands_eq_flattenedAll connective rest]

end

/-- Building a filter with a stack of pending operands comes to its end for every expression, and gives
the filter, or the problem, that the recursion gives. The loop by itself does so for any operands. -/
theorem flattening_eq_recursion :
    (∀ node : Node, node.bare.toFilter = node.flattened ∧
      ∀ result, Builds node.bare result ↔ result = node.flattened) ∧
    ∀ connective (operands : List Node) result,
      Collects connective [] operands.reverse result ↔ result = flattenedAll connective operands := by
  refine ⟨fun node => ?_, fun connective operands result => ?_⟩
  · have same : node.bare.toFilter = node.flattened := by rw [toFilter_bare, toFilter_eq_flattened]
    refine ⟨same, fun result => ⟨fun run => run.eq_toFilter.trans same, ?_⟩⟩
    rintro rfl
    rw [← same]
    exact builds_toFilter node.bare
  · have same : (buildOperands connective operands).map ([] ++ ·) = flattenedAll connective operands := by
      rw [buildOperands_eq_flattenedAll]
      cases flattenedAll connective operands <;> rfl
    constructor
    · intro run
      rw [run.eq_append, List.reverse_reverse, same]
    · rintro rfl
      rw [← same]
      exact collects_buildOperands connective [] operands

end RecordQuery.Node
