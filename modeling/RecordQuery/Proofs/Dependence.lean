import Mathlib
import RecordQuery.Prefilter
import RecordQuery.Proofs.Canonical

namespace RecordQuery

section

variable {α : Type} [DecidableEq α]

theorem eraseDups_concat (items : List α) (item : α) :
    (items ++ [item]).eraseDups =
      if item ∈ items then items.eraseDups else items.eraseDups ++ [item] := by
  rw [List.eraseDups_append]
  by_cases known : item ∈ items <;> simp [List.removeAll, known, List.eraseDups_cons]

theorem nodup_eraseDups (items : List α) : items.eraseDups.Nodup := by
  induction items using List.reverseRecOn with
  | nil => simp
  | append_singleton items item ih =>
    rw [eraseDups_concat]
    split
    · exact ih
    · rename_i fresh
      have absent : item ∉ items.eraseDups := by rwa [List.mem_eraseDups]
      exact ih.append (List.nodup_singleton item) (List.disjoint_singleton.mpr absent)

theorem eraseDups_filter (keep : α → Bool) (items : List α) :
    (items.filter keep).eraseDups = items.eraseDups.filter keep := by
  induction items using List.reverseRecOn with
  | nil => simp
  | append_singleton items item ih =>
    rw [List.filter_append, eraseDups_concat]
    by_cases kept : keep item = true
    · have singleton : [item].filter keep = [item] := by simp [kept]
      rw [singleton, eraseDups_concat, ih]
      by_cases known : item ∈ items <;> simp [known, kept]
    · have nothing : [item].filter keep = [] := by simp [kept]
      rw [nothing, List.append_nil, ih]
      by_cases known : item ∈ items <;> simp [known, kept]

end

namespace Filter

variable {filter : Filter} {left right : Record}

/-- A filter sees of a record only what stands at the paths of its comparisons. -/
theorem evaluate_congr (mode : Mode)
    (agree : ∀ comparison ∈ filter.comparisons,
      left.resolve comparison.path = right.resolve comparison.path) :
    filter.evaluate mode left = filter.evaluate mode right := by
  induction filter using tree_induction with
  | leaf comparison =>
    have here := agree comparison (by simp [comparisons])
    simp only [evaluate, Comparison.evaluate, here]
  | node connective children same =>
    rw [comparisons, comparisonsOfAll_eq_flatMap] at agree
    rw [evaluate_node, evaluate_node]
    induction children with
    | nil => rfl
    | cons child rest ih =>
      simp only [List.flatMap_cons, List.forall_mem_append] at agree
      have first := same child List.mem_cons_self agree.1
      have later := ih (fun other member => same other (List.mem_cons_of_mem child member)) agree.2
      rw [evaluateAll_cons, evaluateAll_cons, first, later]

theorem mem_attributes_iff {name : String} :
    name ∈ filter.attributes ↔ ∃ comparison ∈ filter.comparisons, dotted comparison.path = name := by
  rw [attributes, List.mem_eraseDups, paths_eq_map, List.mem_map]

theorem attributes_joined (filter other : Filter) (connective : Connective) :
    (filter.joined connective other).attributes =
      filter.attributes ++ other.attributes.filter (· ∉ filter.attributes) := by
  have fresh (name : String) : (!filter.paths.elem name) = decide (name ∉ filter.attributes) := by
    simp [attributes]
  rw [attributes, paths_eq_map, comparisons_joined, List.map_append, ← paths_eq_map, ← paths_eq_map,
    List.eraseDups_append, List.removeAll, eraseDups_filter]
  simp only [fresh]
  rfl

end Filter

namespace Query

variable {query other : Query}

/-- The path that a comparison of a query asks for comes back from its dotted form. -/
theorem Reached.pathOfName_dotted (reached : Reached query) {comparison : Comparison}
    (member : comparison ∈ query.filter.comparisons) :
    pathOfName (dotted comparison.path) = comparison.path := by
  obtain ⟨⟨name, _, path⟩, _⟩ := reached.writable.filter comparison member
  rw [path, dotted_pathOfName]

theorem attributes_merge (condition : other.hasCondition = true) (connective : Connective) :
    (query.merge other connective).filter.attributes =
      query.filter.attributes ++ other.filter.attributes.filter (· ∉ query.filter.attributes) := by
  rw [filter_merge_of_hasCondition condition, Filter.attributes_joined]

/-- All that a query can depend on is named by its attributes. Records that agree on them, by what they
have there and by what they lack, cannot be told apart in either mode. Every attribute is the path of a
comparison and is named once, and merging adds those of the other query that are new. -/
theorem attributes_cover :
    (∀ query, Reached query →
      (∀ left right : Record,
        (∀ name ∈ query.filter.attributes,
          left.resolve (pathOfName name) = right.resolve (pathOfName name)) →
        query.accepts left = query.accepts right ∧
          (Prefilter.ofQuery query).verdict left = (Prefilter.ofQuery query).verdict right) ∧
      query.filter.attributes.Nodup ∧
      ∀ name ∈ query.filter.attributes,
        ∃ comparison ∈ query.filter.comparisons, comparison.path = pathOfName name) ∧
    ∀ (query other : Query) (connective : Connective), other.hasCondition = true →
      (query.merge other connective).filter.attributes =
        query.filter.attributes ++ other.filter.attributes.filter (· ∉ query.filter.attributes) := by
  refine ⟨fun query reached => ⟨fun left right agree => ?_, nodup_eraseDups _, ?_⟩, ?_⟩
  · have alike (mode : Mode) : query.filter.evaluate mode left = query.filter.evaluate mode right := by
      refine Filter.evaluate_congr mode fun comparison member => ?_
      have named := Filter.mem_attributes_iff.mpr ⟨comparison, member, rfl⟩
      have same := agree _ named
      rwa [reached.pathOfName_dotted member] at same
    exact ⟨congrArg Verdict.matched (alike .strict), alike .lenient⟩
  · intro name named
    obtain ⟨comparison, member, rfl⟩ := Filter.mem_attributes_iff.mp named
    exact ⟨comparison, member, (reached.pathOfName_dotted member).symm⟩
  · intro query other connective condition
    exact attributes_merge condition connective

/-- One path leads into an array, and two lead nowhere in both records, which differ beside the paths. -/
theorem attributes_cover_missing :
    let first : Filter := .node .or [.leaf ⟨["a", "0"], .relate .gt (.int 1)⟩,
      .leaf ⟨["b", "c"], .contains "x"⟩]
    let second : Filter := .node .and [.leaf ⟨["d"], .relate .ne (.text "y")⟩,
      .leaf ⟨["a", "0"], .relate .lt (.int 9)⟩]
    let query := (ofFilter first).merge (ofFilter second) .and
    let left : Record := .object [("a", .array [.int 1]), ("b", .object [])]
    let right : Record := .object [("a", .array [.int 1, .null]), ("b", .text "c"), ("e", .int 7)]
    query.filter.attributes = ["a.0", "b.c", "d"] ∧ query.accepts left = query.accepts right ∧
      (Prefilter.ofQuery query).verdict left = (Prefilter.ofQuery query).verdict right := by
  intro first second query left right
  have atFirst : parse .builtIn "a.0 > 1 OR b.c CONTAINS 'x'" = .ok (ofFilter first) := by
    unfold first
    cbv
  have atSecond : parse .builtIn "d != 'y' AND a.0 < 9" = .ok (ofFilter second) := by
    unfold second
    cbv
  have reached : Reached query := .merged .and (.parsed atFirst) (.parsed atSecond)
  have attributes : query.filter.attributes = ["a.0", "b.c", "d"] := by decide
  refine ⟨attributes, (attributes_cover.1 query reached).1 left right fun name named => ?_⟩
  rw [attributes] at named
  simp only [List.mem_cons, List.not_mem_nil, or_false] at named
  obtain rfl | rfl | rfl := named <;> rfl

end Query

end RecordQuery
