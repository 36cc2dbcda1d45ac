import RecordQuery.Proofs.Accepted
import RecordQuery.Proofs.Merge
import RecordQuery.Proofs.Rereading

namespace RecordQuery

/-- A comparison in the filter of a query that has been read. -/
def Comparison.IsParsed (comparison : Comparison) : Prop :=
  ∃ settings text query, Query.parse settings text = .ok query ∧
    comparison ∈ query.filter.comparisons

theorem Comparison.IsParsed.writable {comparison : Comparison} (parsed : comparison.IsParsed) :
    comparison.Writable := by
  obtain ⟨settings, text, query, run, member⟩ := parsed
  exact (Query.built_of_read (Query.parse_eq_ok_iff.mp run)).1.filter comparison member

namespace Filter

/-- Two filters that no record tells apart in either mode, and that refer to the same paths. -/
structure Agrees (left right : Filter) : Prop where
  verdict : ∀ mode record, left.evaluate mode record = right.evaluate mode record
  attributes : left.attributes = right.attributes

theorem agrees_regrouped (filter : Filter) : filter.regrouped.Agrees filter :=
  ⟨fun _ _ => evaluate_regrouped filter, attributes_regrouped filter⟩

variable {filter : Filter}

theorem nesting_regrouped_le (filter : Filter) : filter.regrouped.nesting ≤ filter.nesting :=
  Nat.sub_le_sub_right (depth_regrouped_le filter) 1

/-- Regrouping twice is regrouping once. -/
theorem regrouped_regrouped (shape : filter.Full ∨ filter = .matchAll) :
    filter.regrouped.regrouped = filter.regrouped := by
  rcases shape with full | all
  · exact (normal_regrouped full).regrouped_eq
  · rw [all]
    rfl

theorem full_regrouped (shape : filter.Full ∨ filter = .matchAll) :
    filter.regrouped.Full ∨ filter.regrouped = .matchAll := by
  rcases shape with full | all
  · exact Or.inl (normal_regrouped full).full
  · rw [all]
    exact Or.inr rfl

/-- Whether a node without children is a conjunction wherever it stands. -/
def EmptyIsAnd (filter : Filter) : Prop :=
  node .or [] ∉ filter :: filter.descendants

theorem emptyIsAnd_node_iff {connective : Connective} {children : List Filter} :
    (node connective children).EmptyIsAnd ↔
      (connective = .or → children ≠ []) ∧ ∀ child ∈ children, child.EmptyIsAnd := by
  unfold EmptyIsAnd
  rw [descendants, descendantsOfAll_eq_flatMap, List.mem_cons, List.mem_flatMap, not_or]
  refine and_congr ?_ ?_
  · constructor
    · rintro other rfl rfl
      exact other rfl
    · intro other same
      obtain ⟨rfl, rfl⟩ := node.inj same
      exact other rfl rfl
  · constructor
    · exact fun absent child member within => absent ⟨child, member, within⟩
    · rintro absent ⟨child, member, within⟩
      exact absent child member within

theorem Full.emptyIsAnd (full : filter.Full) : filter.EmptyIsAnd :=
  full .or

/-- A filter where only conjunctions are empty has no empty node below the root, or an empty
conjunction. -/
theorem EmptyIsAnd.shape (empty : filter.EmptyIsAnd) (absent : matchAll ∉ filter.descendants) :
    filter.Full ∨ filter = .matchAll := by
  by_cases all : filter = .matchAll
  · exact Or.inr all
  · refine Or.inl fun connective member => ?_
    cases connective with
    | or => exact empty member
    | and =>
      rcases List.mem_cons.mp member with same | below
      · exact all same.symm
      · exact absent below

theorem EmptyIsAnd.joined {other : Filter} (left : filter.EmptyIsAnd) (right : other.EmptyIsAnd)
    (connective : Connective) : (filter.joined connective other).EmptyIsAnd := by
  have wrapped : (node connective [filter, other]).EmptyIsAnd := by
    refine emptyIsAnd_node_iff.mpr ⟨fun _ => List.cons_ne_nil _ _, ?_⟩
    exact List.forall_mem_cons.mpr ⟨left, List.forall_mem_singleton.mpr right⟩
  cases filter with
  | leaf comparison => exact wrapped
  | node own children =>
    by_cases same : own = connective
    · rw [Filter.joined, if_pos same]
      have nonempty : children ++ [other] ≠ [] := List.append_ne_nil_of_right_ne_nil _ (by simp)
      refine emptyIsAnd_node_iff.mpr ⟨fun _ => nonempty, ?_⟩
      refine List.forall_mem_append.mpr ⟨(emptyIsAnd_node_iff.mp left).2, ?_⟩
      exact List.forall_mem_singleton.mpr right
    · rw [Filter.joined, if_neg same]
      exact wrapped

theorem comparisons_joined (filter other : Filter) (connective : Connective) :
    (filter.joined connective other).comparisons = filter.comparisons ++ other.comparisons := by
  have wrapped : (node connective [filter, other]).comparisons =
      filter.comparisons ++ other.comparisons := by
    rw [comparisons, comparisonsOfAll, comparisonsOfAll, comparisonsOfAll, List.append_nil]
  cases filter with
  | leaf comparison => exact wrapped
  | node own children =>
    by_cases same : own = connective
    · rw [Filter.joined, if_pos same, comparisons, comparisons, comparisonsOfAll_eq_flatMap,
        comparisonsOfAll_eq_flatMap, List.flatMap_append, List.flatMap_singleton]
    · rw [Filter.joined, if_neg same]
      exact wrapped

end Filter

namespace Query

variable {settings : Settings} {query other : Query}

theorem reread_reread (shape : query.filter.Full ∨ query.filter = .matchAll) :
    query.reread.reread = query.reread := by
  simp only [reread, Filter.regrouped_regrouped shape, filter_positive_twice]

theorem Writable.reread (writable : query.Writable) : query.reread.Writable :=
  ⟨writable.filter.regrouped, writable.order, writable.token⟩

/-- What is read from a canonical text keeps the meaning of the query and is read again from its
own canonical text. -/
structure RereadAs (query again : Query) : Prop where
  filter : again.filter.Agrees query.filter
  order : again.order? = query.order?
  token : again.token? = query.token?
  limit : again.limit? = query.limit?.filter (0 < ·)
  nesting : again.filter.nesting ≤ query.filter.nesting
  stable : ∀ settings : Settings, again.filter.nesting ≤ settings.maxDepth →
    parse settings again.render = .ok again

theorem rereadAs_reread (writable : query.Writable)
    (shape : query.filter.Full ∨ query.filter = .matchAll) : RereadAs query query.reread where
  filter := query.filter.agrees_regrouped
  order := rfl
  token := rfl
  limit := rfl
  nesting := query.filter.nesting_regrouped_le
  stable := by
    intro settings within
    have again := read_render writable.reread (Filter.full_regrouped shape) within
    rw [reread_reread shape] at again
    exact parse_eq_ok_iff.mpr again

theorem parse_render_of_shape (writable : query.Writable)
    (shape : query.filter.Full ∨ query.filter = .matchAll)
    (within : query.filter.nesting ≤ settings.maxDepth) :
    ∃ again, parse settings query.render = .ok again ∧ RereadAs query again :=
  ⟨query.reread, parse_eq_ok_iff.mpr (read_render writable shape within),
    rereadAs_reread writable shape⟩

theorem parse_render_of_emptyNode (writable : query.Writable) {connective : Connective}
    (member : .node connective [] ∈ query.filter.descendants) (settings : Settings) :
    ∃ error, parse settings query.render = .error error :=
  parse_eq_error_of_read (read_render_of_emptyNode writable member settings.maxDepth)

theorem render_ofFilter (filter : Filter) : (ofFilter filter).render = filter.render false := by
  have noClauses : (ofFilter filter).clauses = [] := rfl
  unfold render
  simp only [noClauses, List.append_nil]
  split
  · rename_i empty
    exact (String.isEmpty_iff.mp empty).symm
  · rfl

/-- The queries that merges make of queries that have been read and of the one that asks for
everything. -/
inductive Reached : Query → Prop
  | parsed {settings : Settings} {text : String} {query : Query} :
      parse settings text = .ok query → Reached query
  | matchAll : Reached matchAll
  | merged {query other : Query} (connective : Connective) : Reached query → Reached other →
      Reached (query.merge other connective)

/-- Merging keeps queries writable: all that it puts together was there before. -/
theorem Writable.merge (left : query.Writable) (right : other.Writable) (connective : Connective) :
    (query.merge other connective).Writable := by
  refine ⟨?_, ?_, ?_⟩
  · by_cases condition : other.hasCondition = true
    · rw [filter_merge_of_hasCondition condition]
      intro comparison member
      rw [Filter.comparisons_joined] at member
      exact (List.mem_append.mp member).elim (left.filter comparison) (right.filter comparison)
    · rw [filter_merge_of_not_hasCondition (Bool.eq_false_iff.mpr condition)]
      exact left.filter
  · intro keys atOrder
    cases atOther : other.order? with
    | none =>
      simp only [Query.merge, atOther] at atOrder
      exact left.order keys atOrder
    | some others =>
      have fromOther := right.order others atOther
      cases atQuery : query.order? with
      | none =>
        simp only [Query.merge, atOther, atQuery] at atOrder
        cases atOrder
        exact fromOther
      | some own =>
        simp only [Query.merge, atOther, atQuery] at atOrder
        cases atOrder
        refine ⟨List.append_ne_nil_of_left_ne_nil fromOther.1 _, ?_⟩
        refine List.forall_mem_append.mpr ⟨fromOther.2, fun key member => ?_⟩
        exact (left.order own atQuery).2 key (List.mem_filter.mp member).1
  · intro token atToken
    rcases Option.or_eq_some_iff.mp atToken with own | ⟨_, own⟩
    · exact right.token token own
    · exact left.token token own

theorem Reached.writable (reached : Reached query) : query.Writable := by
  induction reached with
  | parsed run => exact (built_of_read (parse_eq_ok_iff.mp run)).1
  | matchAll => exact writable_ofFilter fun comparison => List.not_mem_nil.elim
  | merged connective _ _ left right => exact left.merge right connective

theorem Reached.emptyIsAnd (reached : Reached query) : query.filter.EmptyIsAnd := by
  have ofAll : Filter.matchAll.EmptyIsAnd := by
    refine Filter.emptyIsAnd_node_iff.mpr ⟨fun other => ?_, fun child => List.not_mem_nil.elim⟩
    cases other
  induction reached with
  | parsed run =>
    rcases (built_of_read (parse_eq_ok_iff.mp run)).2 with all | built
    · rw [all]
      exact ofAll
    · exact built.normal.full.emptyIsAnd
  | matchAll => exact ofAll
  | @merged query other connective _ _ left right =>
    by_cases condition : other.hasCondition = true
    · rw [filter_merge_of_hasCondition condition]
      exact left.joined right connective
    · rw [filter_merge_of_not_hasCondition (Bool.eq_false_iff.mpr condition)]
      exact left

/-- The canonical text of a tree of parsed comparisons keeps its meaning unless a node below the
root is empty, and then it is refused. For queries that merges make this concerns empty
conjunctions only. -/
theorem canonical_text_keeps_meaning :
    (∀ filter : Filter, (∀ comparison ∈ filter.comparisons, comparison.IsParsed) →
      (filter.Full ∨ filter = .matchAll → ∀ settings : Settings,
        filter.nesting ≤ settings.maxDepth →
          ∃ again, parse settings (filter.render false) = .ok (ofFilter again) ∧
            again.Agrees filter ∧ again.nesting ≤ filter.nesting ∧
            ∀ other : Settings, again.nesting ≤ other.maxDepth →
              parse other (again.render false) = .ok (ofFilter again)) ∧
      ∀ connective, .node connective [] ∈ filter.descendants → ∀ settings : Settings,
        ∃ error, parse settings (filter.render false) = .error error) ∧
    ∀ query, Reached query →
      ((∃ settings again, parse settings query.render = .ok again) ↔
        .matchAll ∉ query.filter.descendants) ∧
      (.matchAll ∉ query.filter.descendants → ∀ settings : Settings,
        query.filter.nesting ≤ settings.maxDepth →
          ∃ again, parse settings query.render = .ok again ∧ RereadAs query again) := by
  refine ⟨?_, ?_⟩
  · intro filter parsed
    have writable : (ofFilter filter).Writable :=
      writable_ofFilter fun comparison member => (parsed comparison member).writable
    refine ⟨fun shape settings within => ?_, fun connective member settings => ?_⟩
    · obtain ⟨⟨again, _, _, _⟩, accepted, ⟨agrees, rfl, rfl, rfl, nesting, stable⟩⟩ :=
        parse_render_of_shape writable shape within
      rw [render_ofFilter] at accepted
      refine ⟨again, accepted, agrees, nesting, fun other deep => ?_⟩
      rw [← render_ofFilter]
      exact stable other deep
    · rw [← render_ofFilter]
      exact parse_render_of_emptyNode writable member settings
  · intro query reached
    have deep (absent : .matchAll ∉ query.filter.descendants) (settings : Settings)
        (within : query.filter.nesting ≤ settings.maxDepth) :
        ∃ again, parse settings query.render = .ok again ∧ RereadAs query again :=
      parse_render_of_shape reached.writable (reached.emptyIsAnd.shape absent) within
    refine ⟨⟨?_, fun absent => ?_⟩, deep⟩
    · rintro ⟨settings, again, accepted⟩ member
      obtain ⟨error, refused⟩ := parse_render_of_emptyNode reached.writable member settings
      rw [refused] at accepted
      cases accepted
    · obtain ⟨again, accepted, _⟩ := deep absent ⟨query.filter.nesting, []⟩ (Nat.le_refl _)
      exact ⟨⟨query.filter.nesting, []⟩, again, accepted⟩

/-- Nodes with one child keep their parentheses in the text and lose them in the filter, and a
disjunction that is merged into the query for everything cannot be written. -/
theorem canonical_text_keeps_meaning_wrapped :
    let first : Comparison := ⟨["a"], .relate .eq (.int 1)⟩
    let second : Comparison := ⟨["b"], .relate .eq (.int 2)⟩
    let wrapped : Filter := .node .and [.node .and [.leaf first], .node .or [.leaf second]]
    (∃ again : Filter, parse ⟨1, []⟩ "( a = 1 ) AND ( b = 2 )" = .ok (ofFilter again) ∧
      again.Agrees wrapped) ∧
    (∃ error, parse .builtIn "a = 1 AND (  )" = .error error) ∧
    ¬∃ settings again,
      parse settings (matchAll.merge (ofFilter (.leaf first)) .or).render = .ok again := by
  intro first second wrapped
  obtain ⟨trees, merges⟩ := canonical_text_keeps_meaning
  have run : parse .builtIn "a = 1 AND b = 2" =
      .ok (ofFilter (.node .and [.leaf first, .leaf second])) := by
    unfold first second
    cbv
  have alone : parse .builtIn "a = 1" = .ok (ofFilter (.leaf first)) := by
    unfold first
    cbv
  have parsed : ∀ comparison ∈ [first, second], comparison.IsParsed := fun comparison member =>
    ⟨.builtIn, _, _, run, member⟩
  refine ⟨?_, ?_, ?_⟩
  · have full : wrapped.Full := fun connective => by cases connective <;> decide
    obtain ⟨again, accepted, agrees, _⟩ := (trees wrapped parsed).1 (Or.inl full) ⟨1, []⟩ (by decide)
    exact ⟨again, accepted, agrees⟩
  · have inner : ∀ comparison ∈ (Filter.node .and [.leaf first, .node .or []]).comparisons,
        comparison.IsParsed :=
      fun comparison member => parsed comparison (List.mem_append_left [second] member)
    exact (trees _ inner).2 .or (by decide) .builtIn
  · rw [(merges _ (.merged .or .matchAll (.parsed alone))).1]
    decide

end Query

end RecordQuery
