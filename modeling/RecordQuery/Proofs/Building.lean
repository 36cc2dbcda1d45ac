import Mathlib.Data.List.Forall2
import RecordQuery.Proofs.Regrouping

namespace RecordQuery

theorem exists_of_bind_eq_ok {ε α β : Type} {first : Except ε α} {next : α → Except ε β}
    {result : β} (run : (first >>= next) = .ok result) :
    ∃ value, first = .ok value ∧ next value = .ok result := by
  cases first with
  | error fault => cases run
  | ok value => exact ⟨value, rfl, run⟩

theorem exists_of_map_eq_ok {ε α β : Type} {first : Except ε α} {image : α → β} {result : β}
    (run : first.map image = .ok result) : ∃ value, first = .ok value ∧ image value = result := by
  cases first with
  | error fault => cases run
  | ok value =>
    cases run
    exact ⟨value, rfl, rfl⟩

/-- A filter in the form of a built one that is at most so deep and can be written again. -/
structure Filter.Built (bound : Nat) (filter : Filter) : Prop where
  normal : filter.Normal
  depth : filter.depth ≤ bound
  writable : filter.Writable

namespace Node

variable {connective : Connective}

/-- The operands that are pending are built in their order, so they may be cut anywhere. -/
theorem buildOperands_append (left right : List Node) :
    buildOperands connective (left ++ right) = do
      let front ← buildOperands connective left
      let back ← buildOperands connective right
      return front ++ back := by
  fun_induction buildOperands connective left with
  | case1 connective =>
    rw [List.nil_append]
    cases buildOperands connective right <;> rfl
  | case2 connective condition pending ih =>
    rw [List.cons_append, buildOperands, ih]
    cases condition.toComparison <;> cases buildOperands connective pending <;>
      cases buildOperands connective right <;> rfl
  | case3 connective content pending ih =>
    rw [List.cons_append, buildOperands, ← List.cons_append, ih]
  | case4 connective operands pending ih =>
    rw [List.cons_append, buildOperands, if_pos rfl, ← List.append_assoc, ih]
  | case5 connective inner operands pending other _ ih =>
    rw [List.cons_append, buildOperands, if_neg other, ih]
    cases buildOperands inner operands <;> cases buildOperands connective pending <;>
      cases buildOperands connective right <;> rfl

/-- An operand contributes the filter that it stands for by itself, or the children of that
filter if it has the connective of the node. -/
theorem buildOperands_cons (connective : Connective) (node : Node) (pending : List Node) :
    buildOperands connective (node :: pending) = do
      let filter ← node.toFilter
      let others ← buildOperands connective pending
      return filter.spliced connective ++ others := by
  match node with
  | .leaf condition =>
    rw [buildOperands, toFilter]
    cases condition.toComparison <;> cases buildOperands connective pending <;> rfl
  | .group content => rw [buildOperands, toFilter, buildOperands_cons connective content pending]
  | .chain inner operands =>
    rw [buildOperands, toFilter]
    by_cases same : inner = connective
    · subst same
      rw [if_pos rfl, buildOperands_append]
      cases buildOperands inner operands with
      | error fault => rfl
      | ok children =>
        cases buildOperands inner pending with
        | error fault => rfl
        | ok others => simp [Except.map, bind, Except.bind, Filter.spliced]
    · rw [if_neg same]
      cases buildOperands inner operands with
      | error fault => rfl
      | ok children =>
        cases buildOperands connective pending with
        | error fault => rfl
        | ok others => simp [Except.map, bind, Except.bind, Filter.spliced, same]

/-- The operands of a node are built if each of them can be built by itself. -/
theorem buildOperands_eq_ok_iff {nodes : List Node} {children : List Filter} :
    buildOperands connective nodes = .ok children ↔
      ∃ filters, List.Forall₂ (fun node filter => node.toFilter = .ok filter) nodes filters ∧
        children = filters.flatMap (Filter.spliced connective) := by
  constructor
  · intro run
    induction nodes generalizing children with
    | nil =>
      rw [buildOperands] at run
      cases run
      exact ⟨[], .nil, rfl⟩
    | cons node rest ih =>
      rw [buildOperands_cons] at run
      obtain ⟨filter, built, run⟩ := exists_of_bind_eq_ok run
      obtain ⟨others, later, run⟩ := exists_of_bind_eq_ok run
      cases run
      obtain ⟨filters, each, rfl⟩ := ih later
      exact ⟨filter :: filters, .cons built each, by rw [List.flatMap_cons]⟩
  · rintro ⟨filters, each, rfl⟩
    induction each with
    | nil => rw [buildOperands]; rfl
    | @cons node filter rest filters built _ ih =>
      rw [buildOperands_cons, built, ih, List.flatMap_cons]
      rfl

/-- Joined operands make the filter that the filters of the operands make. -/
theorem toFilter_join {nodes : List Node} {filters : List Filter}
    (each : List.Forall₂ (fun node filter => node.toFilter = .ok filter) nodes filters)
    (normal : ∀ filter ∈ filters, filter.Normal) :
    (join connective nodes).toFilter = .ok (.ofOperands connective filters) := by
  have whole : buildOperands connective nodes = .ok (filters.flatMap (Filter.spliced connective)) :=
    buildOperands_eq_ok_iff.mpr ⟨filters, each, rfl⟩
  match nodes with
  | [] =>
    cases each
    rw [join, toFilter, whole]
    · rfl
    · exact fun operand single => nomatch single
  | [node] =>
    cases each with
    | @cons _ filter _ _ built rest =>
      cases rest
      rw [join, built, Filter.ofOperands_singleton (normal filter List.mem_cons_self)]
  | first :: second :: rest =>
    have several : 2 ≤ filters.length := by
      rw [← each.length_eq, List.length_cons, List.length_cons]
      omega
    rw [join, toFilter, whole, Filter.ofOperands_of_several normal several]
    · rfl
    · exact fun operand single => nomatch single

theorem each_of_toFilter_join {nodes : List Node} {filter : Filter}
    (run : (join connective nodes).toFilter = .ok filter) :
    ∃ filters, List.Forall₂ (fun node filter => node.toFilter = .ok filter) nodes filters := by
  match nodes with
  | [] => exact ⟨[], .nil⟩
  | [node] => exact ⟨[filter], .cons run .nil⟩
  | first :: second :: rest =>
    have chained : (buildOperands connective (first :: second :: rest)).map
        (Filter.node connective) = .ok filter := run
    obtain ⟨children, whole, _⟩ := exists_of_map_eq_ok chained
    obtain ⟨filters, each, _⟩ := buildOperands_eq_ok_iff.mp whole
    exact ⟨filters, each⟩

theorem forall_of_each {nodes : List Node} {filters : List Filter} {holds : Filter → Prop}
    (each : List.Forall₂ (fun node filter => node.toFilter = .ok filter) nodes filters)
    (sound : ∀ node ∈ nodes, ∀ filter, node.toFilter = .ok filter → holds filter) :
    ∀ filter ∈ filters, holds filter := by
  induction each with
  | nil => exact fun filter member => nomatch member
  | @cons node filter rest others built _ ih =>
    intro next member
    rcases List.mem_cons.mp member with rfl | later
    · exact sound node List.mem_cons_self next built
    · exact ih (fun node inRest => sound node (List.mem_cons_of_mem _ inRest)) next later

/-- Joining operands makes a filter at most one node deeper. -/
theorem built_join {nodes : List Node} {bound : Nat} {filter : Filter} (nonempty : nodes ≠ [])
    (sound : ∀ node ∈ nodes, ∀ filter, node.toFilter = .ok filter → filter.Built bound)
    (run : (join connective nodes).toFilter = .ok filter) : filter.Built (bound + 1) := by
  obtain ⟨filters, each⟩ := each_of_toFilter_join run
  have built := forall_of_each each sound
  have normal : ∀ filter ∈ filters, filter.Normal := fun filter member => (built filter member).normal
  rw [toFilter_join each normal] at run
  obtain rfl := Except.ok.inj run
  refine ⟨Filter.normal_ofOperands ?_ normal, Filter.depth_ofOperands_le ?_, ?_⟩
  · rintro rfl
    cases each
    exact nonempty rfl
  · exact fun operand member => (built operand member).depth
  · intro comparison member
    rw [Filter.comparisons_ofOperands] at member
    obtain ⟨operand, inFilters, inOperand⟩ := List.mem_flatMap.mp member
    exact (built operand inFilters).writable comparison inOperand

end Node

/-- The filter that the expression of a statement stands for. -/
def Statement.filter (statement : Statement) : Except Problem Filter :=
  match statement.expression? with
  | some node => node.toFilter
  | none => .ok .matchAll

/-- The word that the limit of a statement stands for. -/
def Statement.word? (statement : Statement) : Except Problem (Option Int64) :=
  match statement.limit? with
  | some (numeral, column) => (numeral.toWord column).map some
  | none => .ok none

theorem Query.ofStatement_eq_bind (read : Statement) :
    ofStatement read = read.filter.bind fun filter =>
      read.word?.map fun limit? => ⟨filter, read.order?, limit?, read.offset?⟩ := by
  obtain ⟨expression?, order?, limit?, offset?⟩ := read
  cases expression? with
  | none => rcases limit? with _ | ⟨numeral, column⟩ <;> rfl
  | some node => rcases limit? with _ | ⟨numeral, column⟩ <;> rfl

theorem Query.ofStatement_eq_ok_iff {read : Statement} {query : Query} :
    ofStatement read = .ok query ↔
      read.filter = .ok query.filter ∧ read.order? = query.order? ∧
        read.word? = .ok query.limit? ∧ read.offset? = query.token? := by
  obtain ⟨filter, keys?, word?, token?⟩ := query
  rw [ofStatement_eq_bind]
  cases read.filter <;> cases read.word? <;> simp [Except.bind, Except.map]

end RecordQuery
