import RecordQuery.Proofs.Rendering
import RecordQuery.Proofs.Verdict

namespace RecordQuery.Filter

/-- A property of trees holds if it passes from the children of a node to the node. -/
theorem tree_induction {motive : Filter → Prop} (leaf : ∀ comparison, motive (.leaf comparison))
    (node : ∀ connective children, (∀ child ∈ children, motive child) →
      motive (.node connective children)) (filter : Filter) : motive filter := by
  cases filter with
  | leaf comparison => exact leaf comparison
  | node connective children =>
    exact node connective children fun child member =>
      Filter.tree_induction leaf node child
termination_by filter
decreasing_by
  have smaller := List.sizeOf_lt_of_mem member
  rw [Filter.node.sizeOf_spec]
  omega

mutual

/-- The filters below the root of a filter. -/
def descendants : Filter → List Filter
  | .leaf _ => []
  | .node _ children => descendantsOfAll children

/-- The filters of a list and those below their roots. -/
def descendantsOfAll : List Filter → List Filter
  | [] => []
  | child :: rest => child :: (child.descendants ++ descendantsOfAll rest)

end

mutual

/-- How many nodes lie on the longest path from the root. -/
def depth : Filter → Nat
  | .leaf _ => 0
  | .node _ children => depthOfAll children + 1

/-- How many nodes lie on the longest path from any of several roots. -/
def depthOfAll : List Filter → Nat
  | [] => 0
  | child :: rest => max child.depth (depthOfAll rest)

end

/-- How many nodes below the root lie on one path, which is how deep the canonical text nests. -/
def nesting (filter : Filter) : Nat :=
  filter.depth - 1

/-- Whether every node has a child. -/
def Full (filter : Filter) : Prop :=
  ∀ connective, node connective [] ∉ filter :: filter.descendants

/-- The form that filters are built in: a node has several children, and none of them has its
connective. -/
inductive Normal : Filter → Prop
  | leaf (comparison : Comparison) : Normal (.leaf comparison)
  | node {connective : Connective} {children : List Filter} (several : 2 ≤ children.length)
      (normal : ∀ child ∈ children, Normal child)
      (other : ∀ grandchildren, Filter.node connective grandchildren ∉ children) :
      Normal (.node connective children)

/-- What a filter becomes as a child of a node: its own children if it has the connective of the
node. -/
def spliced (connective : Connective) : Filter → List Filter
  | .leaf comparison => [.leaf comparison]
  | .node own children => if own = connective then children else [.node own children]

/-- A node with the given children, or the only child itself. -/
def gathered (connective : Connective) : List Filter → Filter
  | [only] => only
  | children => .node connective children

/-- The filter that operands make when a connective joins them. -/
def ofOperands (connective : Connective) (operands : List Filter) : Filter :=
  gathered connective (operands.flatMap (spliced connective))

mutual

/-- The filter that is read from the canonical text of a filter. -/
def regrouped : Filter → Filter
  | .leaf comparison => .leaf comparison
  | .node connective children => ofOperands connective (regroupedAll children)

/-- Each filter of a list regrouped. -/
def regroupedAll : List Filter → List Filter
  | [] => []
  | child :: rest => child.regrouped :: regroupedAll rest

end

theorem descendantsOfAll_eq_flatMap (children : List Filter) :
    descendantsOfAll children = children.flatMap fun child => child :: child.descendants := by
  induction children with
  | nil => rfl
  | cons child rest ih => rw [descendantsOfAll, ih, List.flatMap_cons, List.cons_append]

theorem regroupedAll_eq_map (children : List Filter) :
    regroupedAll children = children.map regrouped := by
  induction children with
  | nil => rfl
  | cons child rest ih => rw [regroupedAll, ih, List.map_cons]

theorem regrouped_node (connective : Connective) (children : List Filter) :
    (node connective children).regrouped = ofOperands connective (children.map regrouped) := by
  rw [regrouped, regroupedAll_eq_map]

theorem full_node_iff {connective : Connective} {children : List Filter} :
    (node connective children).Full ↔ children ≠ [] ∧ ∀ child ∈ children, child.Full := by
  simp only [Full, descendants, descendantsOfAll_eq_flatMap, List.mem_cons, List.mem_flatMap,
    not_or, not_exists, not_and]
  constructor
  · intro full
    refine ⟨fun empty => (full connective).1 (by rw [empty]), fun child member other => ?_⟩
    exact ⟨((full other).2 child member).1, ((full other).2 child member).2⟩
  · rintro ⟨nonempty, full⟩ other
    refine ⟨fun same => nonempty (node.inj same).2.symm, fun child member => full child member other⟩

theorem depth_child {connective : Connective} {children : List Filter} {child : Filter}
    (member : child ∈ children) : child.depth + 1 ≤ (node connective children).depth := by
  rw [depth]
  induction children with
  | nil => cases member
  | cons first rest ih =>
    rw [depthOfAll]
    rcases List.mem_cons.mp member with rfl | later
    · omega
    · have bound := ih later
      omega

theorem depth_node_le {connective : Connective} {children : List Filter} {bound : Nat}
    (within : ∀ child ∈ children, child.depth ≤ bound) :
    (node connective children).depth ≤ bound + 1 := by
  rw [depth]
  induction children with
  | nil => rw [depthOfAll]; omega
  | cons first rest ih =>
    rw [depthOfAll]
    have atFirst := within first List.mem_cons_self
    have atRest := ih fun child member => within child (List.mem_cons_of_mem first member)
    omega

theorem exists_depth_child (connective : Connective) {children : List Filter}
    (nonempty : children ≠ []) :
    ∃ child ∈ children, child.depth + 1 = (node connective children).depth := by
  rw [depth]
  induction children with
  | nil => exact absurd rfl nonempty
  | cons first rest ih =>
    rw [depthOfAll]
    by_cases deepest : depthOfAll rest ≤ first.depth
    · exact ⟨first, List.mem_cons_self, by omega⟩
    · cases rest with
      | nil => exact absurd (Nat.zero_le _) deepest
      | cons next rest =>
        obtain ⟨child, member, atChild⟩ := ih (List.cons_ne_nil _ _)
        exact ⟨child, List.mem_cons_of_mem first member, by omega⟩

section Meaning

variable {mode : Mode} {record : Record}

theorem evaluateAll_spliced (connective : Connective) (filter : Filter) :
    evaluateAll mode record connective (filter.spliced connective) =
      filter.evaluate mode record := by
  cases filter with
  | leaf comparison => exact evaluateAll_singleton _
  | node own children =>
    by_cases same : own = connective
    · rw [spliced, if_pos same, evaluate_node, same]
    · rw [spliced, if_neg same, evaluateAll_singleton]

theorem evaluate_gathered (connective : Connective) (children : List Filter) :
    (gathered connective children).evaluate mode record =
      evaluateAll mode record connective children := by
  unfold gathered
  split
  · exact (evaluateAll_singleton _).symm
  · rfl

theorem evaluate_ofOperands (connective : Connective) (operands : List Filter) :
    (ofOperands connective operands).evaluate mode record =
      evaluateAll mode record connective operands := by
  rw [ofOperands, evaluate_gathered]
  induction operands with
  | nil => rfl
  | cons operand rest ih =>
    rw [List.flatMap_cons, evaluateAll_append, evaluateAll_spliced, ih, evaluateAll_cons]

/-- Regrouping keeps the verdict on every record in both modes, with what it assumes. -/
theorem evaluate_regrouped (filter : Filter) :
    filter.regrouped.evaluate mode record = filter.evaluate mode record := by
  induction filter using tree_induction with
  | leaf comparison => rfl
  | node connective children same =>
    rw [regrouped_node, evaluate_ofOperands, evaluate_node]
    induction children with
    | nil => rfl
    | cons child rest ih =>
      have later := ih fun other member => same other (List.mem_cons_of_mem child member)
      rw [List.map_cons, evaluateAll_cons, evaluateAll_cons, same child List.mem_cons_self, later]

theorem comparisons_ofOperands (connective : Connective) (operands : List Filter) :
    (ofOperands connective operands).comparisons = operands.flatMap comparisons := by
  have gathering (children : List Filter) :
      (gathered connective children).comparisons = children.flatMap comparisons := by
    unfold gathered
    split
    · exact (List.append_nil _).symm
    · rw [comparisons, comparisonsOfAll_eq_flatMap]
  have splicing (operand : Filter) :
      (operand.spliced connective).flatMap comparisons = operand.comparisons := by
    cases operand with
    | leaf comparison => rfl
    | node own children =>
      by_cases same : own = connective
      · rw [spliced, if_pos same, comparisons, comparisonsOfAll_eq_flatMap]
      · rw [spliced, if_neg same, List.flatMap_singleton]
  rw [ofOperands, gathering, List.flatMap_assoc]
  simp only [splicing]

/-- Regrouping keeps the comparisons and their order. -/
theorem comparisons_regrouped (filter : Filter) :
    filter.regrouped.comparisons = filter.comparisons := by
  induction filter using tree_induction with
  | leaf comparison => rfl
  | node connective children same =>
    rw [regrouped_node, comparisons_ofOperands, comparisons, comparisonsOfAll_eq_flatMap]
    induction children with
    | nil => rfl
    | cons child rest ih =>
      have later := ih fun other member => same other (List.mem_cons_of_mem child member)
      rw [List.map_cons, List.flatMap_cons, List.flatMap_cons, same child List.mem_cons_self, later]

theorem paths_eq_map (filter : Filter) :
    filter.paths = filter.comparisons.map fun comparison => dotted comparison.path := by
  induction filter using tree_induction with
  | leaf comparison => rfl
  | node connective children same =>
    rw [paths, comparisons]
    induction children with
    | nil => rfl
    | cons child rest ih =>
      have later := ih fun other member => same other (List.mem_cons_of_mem child member)
      rw [pathsOfAll, same child List.mem_cons_self, later, comparisonsOfAll, List.map_append]

theorem attributes_regrouped (filter : Filter) :
    filter.regrouped.attributes = filter.attributes := by
  rw [attributes, attributes, paths_eq_map, paths_eq_map, comparisons_regrouped]

theorem Writable.regrouped {filter : Filter} (writable : filter.Writable) :
    filter.regrouped.Writable := by
  intro comparison member
  rw [comparisons_regrouped] at member
  exact writable comparison member

end Meaning

section Form

variable {connective : Connective}

/-- What a filter in the form of a built one becomes as a child: filters of that form without the
connective of the node, of which there is one at least. -/
theorem Normal.children_spliced {filter : Filter} (normal : filter.Normal)
    (connective : Connective) :
    filter.spliced connective ≠ [] ∧ (∀ child ∈ filter.spliced connective, child.Normal) ∧
      ∀ grandchildren, Filter.node connective grandchildren ∉ filter.spliced connective := by
  cases normal with
  | leaf comparison =>
    refine ⟨List.cons_ne_nil _ _, ?_, fun grandchildren member => ?_⟩
    · intro child member
      rw [List.mem_singleton.mp member]
      exact .leaf comparison
    · cases List.mem_singleton.mp member
  | @node own children several normal other =>
    by_cases same : own = connective
    · rw [spliced, if_pos same]
      refine ⟨fun empty => ?_, normal, fun grandchildren => same ▸ other grandchildren⟩
      rw [empty] at several
      cases several
    · rw [spliced, if_neg same]
      refine ⟨List.cons_ne_nil _ _, ?_, fun grandchildren member => ?_⟩
      · intro child member
        rw [List.mem_singleton.mp member]
        exact .node several normal other
      · exact same (Filter.node.inj (List.mem_singleton.mp member)).1.symm

theorem gathered_of_several {children : List Filter} (several : 2 ≤ children.length) :
    gathered connective children = node connective children := by
  match children with
  | first :: second :: rest => rfl
  | [] | [_] => simp at several

theorem ofOperands_singleton {filter : Filter} (normal : filter.Normal) :
    ofOperands connective [filter] = filter := by
  rw [ofOperands, List.flatMap_singleton]
  cases normal with
  | leaf comparison => rfl
  | @node own children several _ _ =>
    by_cases same : own = connective
    · rw [spliced, if_pos same, ← same, gathered_of_several several]
    · rw [spliced, if_neg same]
      rfl

theorem ofOperands_of_several {operands : List Filter}
    (normal : ∀ operand ∈ operands, operand.Normal) (several : 2 ≤ operands.length) :
    ofOperands connective operands = node connective (operands.flatMap (spliced connective)) := by
  refine gathered_of_several ?_
  match operands with
  | first :: second :: rest =>
    have atFirst := ((normal first (by simp)).children_spliced connective).1
    have atSecond := ((normal second (by simp)).children_spliced connective).1
    have firstPositive := List.length_pos_iff.mpr atFirst
    have secondPositive := List.length_pos_iff.mpr atSecond
    simp only [List.flatMap_cons, List.length_append]
    omega
  | [] | [_] => simp at several

theorem normal_gathered {children : List Filter} (nonempty : children ≠ [])
    (normal : ∀ child ∈ children, child.Normal)
    (other : ∀ grandchildren, node connective grandchildren ∉ children) :
    (gathered connective children).Normal := by
  match children with
  | [] => exact absurd rfl nonempty
  | [only] => exact normal only List.mem_cons_self
  | first :: second :: rest =>
    exact .node (by simp only [List.length_cons]; omega) normal other

/-- Operands in the form of built filters make such a filter. -/
theorem normal_ofOperands {operands : List Filter} (nonempty : operands ≠ [])
    (normal : ∀ operand ∈ operands, operand.Normal) : (ofOperands connective operands).Normal := by
  have spliced (operand : Filter) (member : operand ∈ operands) :=
    (normal operand member).children_spliced connective
  refine normal_gathered ?_ ?_ ?_
  · obtain ⟨first, rest, rfl⟩ := List.exists_cons_of_ne_nil nonempty
    rw [List.flatMap_cons]
    exact List.append_ne_nil_of_left_ne_nil (spliced first List.mem_cons_self).1 _
  · intro child member
    obtain ⟨operand, inOperands, inOperand⟩ := List.mem_flatMap.mp member
    exact (spliced operand inOperands).2.1 child inOperand
  · intro children member
    obtain ⟨operand, inOperands, inOperand⟩ := List.mem_flatMap.mp member
    exact (spliced operand inOperands).2.2 children inOperand

theorem depth_spliced_le {filter child : Filter} (member : child ∈ filter.spliced connective) :
    child.depth ≤ filter.depth := by
  cases filter with
  | leaf comparison => exact Nat.le_of_eq (congrArg depth (List.mem_singleton.mp member))
  | node own children =>
    by_cases same : own = connective
    · rw [spliced, if_pos same] at member
      exact Nat.le_of_succ_le (depth_child member)
    · rw [spliced, if_neg same] at member
      exact Nat.le_of_eq (congrArg depth (List.mem_singleton.mp member))

theorem depth_ofOperands_le {operands : List Filter} {bound : Nat}
    (within : ∀ operand ∈ operands, operand.depth ≤ bound) :
    (ofOperands connective operands).depth ≤ bound + 1 := by
  have bounded : ∀ child ∈ operands.flatMap (spliced connective), child.depth ≤ bound := by
    intro child member
    obtain ⟨operand, inOperands, inOperand⟩ := List.mem_flatMap.mp member
    exact Nat.le_trans (depth_spliced_le inOperand) (within operand inOperands)
  unfold ofOperands gathered
  split
  · rename_i only single
    exact Nat.le_succ_of_le (bounded only (by rw [single]; exact List.mem_cons_self))
  · exact depth_node_le bounded

/-- Regrouping brings a filter without empty nodes into the form of a built one. -/
theorem normal_regrouped {filter : Filter} (full : filter.Full) : filter.regrouped.Normal := by
  induction filter using tree_induction with
  | leaf comparison => exact .leaf comparison
  | node connective children ih =>
    obtain ⟨nonempty, full⟩ := full_node_iff.mp full
    rw [regrouped_node]
    refine normal_ofOperands (fun empty => nonempty (List.map_eq_nil_iff.mp empty)) ?_
    intro operand member
    obtain ⟨child, inChildren, rfl⟩ := List.mem_map.mp member
    exact ih child inChildren (full child inChildren)

theorem Normal.full {filter : Filter} (normal : filter.Normal) : filter.Full := by
  induction normal with
  | leaf comparison => exact fun connective member => by simp [descendants] at member
  | node several _ _ full =>
    refine full_node_iff.mpr ⟨fun empty => ?_, full⟩
    rw [empty] at several
    cases several

theorem spliced_eq_singleton {filter : Filter}
    (other : ∀ children, filter ≠ node connective children) :
    filter.spliced connective = [filter] := by
  cases filter with
  | leaf comparison => rfl
  | node own children =>
    rw [spliced, if_neg]
    rintro rfl
    exact other children rfl

theorem flatMap_spliced_eq_self {children : List Filter}
    (other : ∀ grandchildren, node connective grandchildren ∉ children) :
    children.flatMap (spliced connective) = children := by
  induction children with
  | nil => rfl
  | cons child rest ih =>
    have apart : ∀ grandchildren, child ≠ node connective grandchildren := by
      rintro grandchildren rfl
      exact other grandchildren List.mem_cons_self
    have later := ih fun grandchildren member =>
      other grandchildren (List.mem_cons_of_mem child member)
    rw [List.flatMap_cons, spliced_eq_singleton apart, later, List.singleton_append]

/-- A filter in the form of a built one stays as it is. -/
theorem Normal.regrouped_eq {filter : Filter} (normal : filter.Normal) :
    filter.regrouped = filter := by
  induction normal with
  | leaf comparison => rfl
  | @node connective children several normal other same =>
    have unchanged : children.map regrouped = children :=
      (List.map_congr_left (g := id) same).trans (List.map_id children)
    rw [regrouped_node, unchanged, ofOperands_of_several normal several,
      flatMap_spliced_eq_self other]

/-- Regrouping never makes a filter deeper. -/
theorem depth_regrouped_le (filter : Filter) : filter.regrouped.depth ≤ filter.depth := by
  induction filter using tree_induction with
  | leaf comparison => exact Nat.le_refl _
  | node connective children ih =>
    rw [regrouped_node, depth]
    refine depth_ofOperands_le fun operand member => ?_
    obtain ⟨child, inChildren, rfl⟩ := List.mem_map.mp member
    have atChild : child.depth + 1 ≤ (node connective children).depth := depth_child inChildren
    have atRegrouped := ih child inChildren
    rw [depth] at atChild
    omega

end Form

end RecordQuery.Filter
