import Mathlib
import RecordQuery.Proofs.Accepted
import RecordQuery.Proofs.Rereading

namespace RecordQuery

open Token Place

/-- Tokens with a blank between neighbours are cut apart again. -/
theorem Token.scans_spaced {kinds : List TokenKind} (wellFormed : ∀ kind ∈ kinds, kind.WellFormed) :
    Scans (String.intercalate " " (kinds.map TokenKind.spelling)).toList kinds := by
  have spells := Spells.intercalate (.blank []) .blank kinds
    fun kind member => Spells.token (wellFormed kind member)
  rw [Query.intercalate_nil_eq_flatten, ← List.flatMap_def, List.flatMap_singleton'] at spells
  rw [String.toList_intercalate, List.map_map]
  exact spells.scans

namespace Filter

/-- The comparison in the filters below. -/
def stair : Comparison :=
  ⟨["a"], .relate .eq (.int 1)⟩

/-- A disjunction whose last operand is a conjunction that ends with a filter. -/
def alternation (last : Filter) : Filter :=
  .node .or [.leaf stair, .node .and [.leaf stair, last]]

/-- Filters that a text writes with one group for every second node, while their canonical text
has one for every node below the root. -/
def staircase : Nat → Filter
  | 0 => alternation (.leaf stair)
  | depth + 1 => alternation (staircase depth)

/-- The tokens of such a text. A conjunction needs no parentheses inside a disjunction. -/
def staircaseKinds : Nat → List TokenKind
  | 0 => stair.kinds ++ .keyword .or :: (stair.kinds ++ .keyword .and :: stair.kinds)
  | depth + 1 =>
    stair.kinds ++ .keyword .or :: (stair.kinds ++ .keyword .and ::
      (.punctuation .openGroup :: (staircaseKinds depth ++ [.punctuation .closeGroup])))

theorem writable_stair : stair.Writable :=
  have word : IsWord "a" := ⟨'a', [], rfl, by decide, fun d => List.not_mem_nil.elim⟩
  ⟨⟨"a", ⟨word, by decide⟩, by decide⟩, trivial⟩

variable {limit : Nat} {outer : List Level}

theorem normal_alternation {last : Filter} (normal : last.Normal)
    (other : ∀ children, last ≠ node .and children) : (alternation last).Normal := by
  have conjunction : (node .and [.leaf stair, last]).Normal := by
    refine .node (Nat.le_refl 2) ?_ ?_
    · exact List.forall_mem_cons.mpr ⟨.leaf stair, List.forall_mem_singleton.mpr normal⟩
    · intro children member
      rcases List.mem_pair.mp member with same | same
      · cases same
      · exact other children same.symm
  refine .node (Nat.le_refl 2) ?_ ?_
  · exact List.forall_mem_cons.mpr ⟨.leaf stair, List.forall_mem_singleton.mpr conjunction⟩
  · intro children member
    rcases List.mem_pair.mp member with same | same <;> cases same

theorem normal_staircase (depth : Nat) : (staircase depth).Normal := by
  induction depth with
  | zero => exact normal_alternation (.leaf stair) fun children => nofun
  | succ depth ih =>
    refine normal_alternation ih fun children => ?_
    cases depth <;> exact nofun

theorem comparisons_staircase {comparison : Comparison} {depth : Nat}
    (member : comparison ∈ (staircase depth).comparisons) : comparison = stair := by
  induction depth with
  | zero => simpa [staircase, alternation, comparisons, comparisonsOfAll] using member
  | succ depth ih =>
    have among : comparison = stair ∨ comparison ∈ (staircase depth).comparisons := by
      simpa [staircase, alternation, comparisons, comparisonsOfAll] using member
    exact among.elim id ih

theorem depth_staircase (depth : Nat) : (staircase depth).depth = 2 * depth + 2 := by
  induction depth with
  | zero => rfl
  | succ depth ih =>
    simp only [staircase, alternation, Filter.depth, depthOfAll, ih]
    omega

theorem toFilter_alternation {last : Filter} {first second third : Node} (normal : last.Normal)
    (other : ∀ children, last ≠ node .and children)
    (atFirst : first.toFilter = .ok (.leaf stair)) (atSecond : second.toFilter = .ok (.leaf stair))
    (atThird : third.toFilter = .ok last) :
    (Node.join .or [first, .join .and [second, third]]).toFilter = .ok (alternation last) := by
  have leaf : (Filter.leaf stair).Normal := .leaf stair
  have operands : ∀ operand ∈ [.leaf stair, last], operand.Normal :=
    List.forall_mem_cons.mpr ⟨leaf, List.forall_mem_singleton.mpr normal⟩
  have inner : (Node.join .and [second, third]).toFilter = .ok (ofOperands .and [.leaf stair, last]) :=
    Node.toFilter_join (.cons atSecond (.cons atThird .nil)) operands
  have conjunction : (ofOperands .and [.leaf stair, last]).Normal :=
    normal_ofOperands (List.cons_ne_nil _ _) operands
  have outer : (Node.join .or [first, .join .and [second, third]]).toFilter =
      .ok (ofOperands .or [.leaf stair, ofOperands .and [.leaf stair, last]]) :=
    Node.toFilter_join (.cons atFirst (.cons inner .nil))
      (List.forall_mem_cons.mpr ⟨leaf, List.forall_mem_singleton.mpr conjunction⟩)
  have unchanged := (normal_alternation normal other).regrouped_eq
  simp only [alternation, regrouped_node, List.map_cons, List.map_nil, normal.regrouped_eq,
    leaf.regrouped_eq] at unchanged
  rw [outer, unchanged]
  rfl

theorem reads_alternation {last : Filter} {kinds : List TokenKind} (normal : last.Normal)
    (other : ∀ children, last ≠ node .and children)
    (reads : ∀ level, Reads limit (.operand ⟨level, outer⟩) kinds (Behind ⟨level, outer⟩ last)) :
    Reads limit (.operand ⟨.empty, outer⟩)
      (stair.kinds ++ .keyword .or :: (stair.kinds ++ .keyword .and :: kinds))
      fun place => ∃ level, place = .operandEnd ⟨level, outer⟩ ∧
        level.toNode.toFilter = .ok (alternation last) := by
  refine (reads_comparison writable_stair).append ?_
  rintro _ ⟨first, atFirst, rfl⟩
  refine .cons fun _ => ⟨_, rfl, (reads_comparison writable_stair).append ?_⟩
  rintro _ ⟨second, atSecond, rfl⟩
  refine .cons fun _ => ⟨_, rfl, (reads _).mono ?_⟩
  rintro _ ⟨third, atThird, rfl⟩
  exact ⟨_, rfl, toFilter_alternation normal other atFirst atSecond atThird⟩

theorem staircase_ne_and (depth : Nat) (children : List Filter) :
    staircase depth ≠ node .and children := by
  cases depth <;> exact nofun

/-- Every second node is read without a group of its own. -/
theorem reads_staircase {depth : Nat} (within : outer.length + depth ≤ limit) :
    Reads limit (.operand ⟨.empty, outer⟩) (staircaseKinds depth)
      fun place => ∃ level, place = .operandEnd ⟨level, outer⟩ ∧
        level.toNode.toFilter = .ok (staircase depth) := by
  induction depth generalizing outer with
  | zero =>
    exact reads_alternation (.leaf stair) (fun children => nofun)
      fun level => reads_comparison writable_stair
  | succ depth ih =>
    refine reads_alternation (normal_staircase depth) (staircase_ne_and depth) fun level => ?_
    have room : (Levels.mk level outer).depth + 1 ≤ limit := by
      show outer.length + 1 ≤ limit
      omega
    have deeper : (level :: outer).length + depth ≤ limit := by
      rw [List.length_cons]
      omega
    refine .cons fun _ => ⟨.operand ⟨.empty, level :: outer⟩, ?_, (ih deeper).append ?_⟩
    · simp only [next?, afterOperandStart?, if_pos room]
      rfl
    · rintro _ ⟨inner, rfl, built⟩
      refine .cons fun _ => ⟨_, rfl, .nil ⟨.group inner.toNode, ?_, rfl⟩⟩
      rw [Node.toFilter]
      exact built

theorem wellFormed_staircaseKinds (depth : Nat) :
    ∀ kind ∈ staircaseKinds depth, kind.WellFormed := by
  have comparison : ∀ kind ∈ stair.kinds, kind.WellFormed :=
    (Comparison.spells_render writable_stair).scans.wellFormed
  have ends (word : Keyword) {kinds : List TokenKind} (others : ∀ kind ∈ kinds, kind.WellFormed) :
      ∀ kind ∈ stair.kinds ++ .keyword word :: kinds, kind.WellFormed := by
    refine List.forall_mem_append.mpr ⟨comparison, List.forall_mem_cons.mpr ⟨trivial, others⟩⟩
  induction depth with
  | zero => exact ends .or (ends .and comparison)
  | succ depth ih =>
    refine ends .or (ends .and (List.forall_mem_cons.mpr ⟨trivial, ?_⟩))
    exact List.forall_mem_append.mpr ⟨ih, List.forall_mem_singleton.mpr trivial⟩

end Filter

namespace Query

/-- A text for such a filter. -/
def staircaseText (depth : Nat) : String :=
  String.intercalate " " ((Filter.staircaseKinds depth).map TokenKind.spelling)

/-- Its text is read under a limit that its canonical text needs twice and one more. -/
theorem read_staircase (depth : Nat) :
    read depth (staircaseText depth) = .ok (ofFilter (.staircase depth)) := by
  refine read_eq_ok_of_reads (scans_spaced (Filter.wellFormed_staircaseKinds depth)) ?_
  have room : ([] : List Level).length + depth ≤ depth := by simp
  refine .start ?_ ((Filter.reads_staircase room).mono ?_)
  · cases depth <;> exact ⟨_, _, rfl, fun _ => rfl⟩
  · rintro _ ⟨level, rfl, built⟩
    exact (ends_operandEnd built).mono (List.nil_subset _)

theorem writable_staircase (depth : Nat) : (ofFilter (.staircase depth)).Writable :=
  writable_ofFilter fun comparison member => by
    rw [Filter.comparisons_staircase member]
    exact Filter.writable_stair

/-- A query that has been read comes back from its canonical text, except for a limit that is not
positive. -/
theorem reread_of_read {limit : Nat} {text : String} {query : Query}
    (run : read limit text = .ok query) :
    query.reread = { query with limit? := query.limit?.filter (0 < ·) } := by
  obtain ⟨_, all | built⟩ := built_of_read run
  · rw [reread, all]
    rfl
  · rw [reread, built.normal.regrouped_eq]

theorem render_of_positive_limit (query : Query) :
    ({ query with limit? := query.limit?.filter (0 < ·) } : Query).render = query.render := by
  unfold render clauses
  simp only [filter_positive_twice]

/-- The canonical text of an accepted text is accepted and denotes the same query, without the
limit if it is not positive, and it stays as it is. It may nest twice as deep as the text and
once more, and there are texts for every depth where it does. -/
theorem parse_render_exact :
    (∀ (settings deeper : Settings) (text : String) (query : Query),
      parse settings text = .ok query → 2 * settings.maxDepth + 1 ≤ deeper.maxDepth →
        ∃ again, parse deeper query.render = .ok again ∧ again.filter = query.filter ∧
          again.order? = query.order? ∧ again.token? = query.token? ∧
          again.limit? = query.limit?.filter (0 < ·) ∧ again.render = query.render) ∧
      ∀ depth, ∃ text query,
        (∀ settings : Settings, settings.maxDepth = depth → parse settings text = .ok query) ∧
          ∀ settings : Settings, settings.maxDepth = 2 * depth →
            ∃ error, parse settings query.render = .error error := by
  refine ⟨?_, ?_⟩
  · intro settings deeper text query run deep
    have atText := parse_eq_ok_iff.mp run
    obtain ⟨writable, shape⟩ := built_of_read atText
    have again : parse deeper query.render = .ok query.reread := by
      refine parse_eq_ok_iff.mpr (read_render writable ?_ ?_)
      · exact shape.symm.imp_left fun built => built.normal.full
      · rcases shape with all | built
        · rw [all]
          exact Nat.zero_le _
        · have bound := built.depth
          rw [Filter.nesting]
          omega
    rw [reread_of_read atText] at again
    exact ⟨_, again, rfl, rfl, rfl, rfl, render_of_positive_limit query⟩
  · intro depth
    refine ⟨staircaseText depth, ofFilter (.staircase depth), ?_, ?_⟩
    · rintro settings rfl
      exact parse_eq_ok_iff.mpr (read_staircase settings.maxDepth)
    · intro settings atDepth
      refine parse_eq_error_of_read (read_render_of_deep (writable_staircase depth) ?_ ?_)
      · exact (Filter.normal_staircase depth).full
      · have height := Filter.depth_staircase depth
        show settings.maxDepth < (Filter.staircase depth).depth - 1
        omega

/-- A conjunction inside a disjunction is written without parentheses and comes back with them. -/
theorem parse_render_exact_mixed :
    let query : Query := ⟨.node .or [.leaf ⟨["a"], .relate .eq (.int 1)⟩,
      .node .and [.leaf ⟨["b"], .relate .eq (.int 2)⟩, .leaf ⟨["c"], .relate .eq (.int 3)⟩]],
      none, some 0, none⟩
    parse ⟨0, []⟩ "a = 1 OR b = 2 AND c = 3 LIMIT 0" = .ok query ∧
      parse ⟨1, []⟩ "a = 1 OR ( b = 2 AND c = 3 )" =
        .ok { query with limit? := none } ∧
      ∃ text other, parse ⟨0, []⟩ text = .ok other ∧
        ∃ error, parse ⟨0, []⟩ other.render = .error error := by
  intro query
  obtain ⟨exact, tight⟩ := parse_render_exact
  have run : parse ⟨0, []⟩ "a = 1 OR b = 2 AND c = 3 LIMIT 0" = .ok query := by
    unfold query
    cbv
  have text : query.render = "a = 1 OR ( b = 2 AND c = 3 )" := by
    unfold query
    cbv
  obtain ⟨⟨filter, order?, limit?, token?⟩, again, rfl, rfl, rfl, rfl, _⟩ :=
    exact ⟨0, []⟩ ⟨1, []⟩ _ query run (by decide)
  rw [text] at again
  refine ⟨run, again, ?_⟩
  obtain ⟨shallow, other, accepted, refused⟩ := tight 0
  exact ⟨shallow, other, accepted ⟨0, []⟩ rfl, refused ⟨0, []⟩ rfl⟩

end Query

end RecordQuery
