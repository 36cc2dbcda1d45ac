import Mathlib
import RecordQuery.Proofs.Verdict
import RecordQuery.Query.Merge

namespace RecordQuery

/-- Whichever way a filter is joined, as one more child of the root or under a new root, it is
asked after what was there before. -/
theorem Filter.evaluate_joined (mode : Mode) (record : Record) (connective : Connective)
    (left right : Filter) :
    (left.joined connective right).evaluate mode record =
      (left.evaluate mode record).followedBy connective (right.evaluate mode record) := by
  have wrapped : (node connective [left, right]).evaluate mode record =
      (left.evaluate mode record).followedBy connective (right.evaluate mode record) := by
    rw [evaluate_node, evaluateAll_cons, evaluateAll_singleton]
  cases left with
  | leaf comparison => exact wrapped
  | node own children =>
    by_cases same : own = connective
    · subst same
      simp only [joined, if_true, evaluate_node, evaluateAll_append, evaluateAll_cons,
        evaluateAll_nil, Verdict.followedBy_neutral]
    · simpa only [joined, if_neg same] using wrapped

namespace Query

variable {query other : Query}

theorem filter_merge_of_hasCondition (condition : other.hasCondition = true)
    (connective : Connective) :
    (query.merge other connective).filter = query.filter.joined connective other.filter := by
  simp only [merge, condition, if_true]

theorem filter_merge_of_not_hasCondition (none : other.hasCondition = false)
    (connective : Connective) : (query.merge other connective).filter = query.filter := by
  simp only [merge, none, Bool.false_eq_true, if_false]

theorem evaluate_merge (condition : other.hasCondition = true) (connective : Connective)
    (mode : Mode) (record : Record) :
    (query.merge other connective).filter.evaluate mode record =
      (query.filter.evaluate mode record).followedBy connective
        (other.filter.evaluate mode record) := by
  rw [filter_merge_of_hasCondition condition, Filter.evaluate_joined]

/-- A query without a condition is passed by every record and assumes nothing. -/
theorem evaluate_of_not_hasCondition (none : query.hasCondition = false) (mode : Mode)
    (record : Record) : query.filter.evaluate mode record = .neutral .and := by
  obtain ⟨filter, _, _, _⟩ := query
  match filter with
  | .node .and [] => rfl
  | .leaf _ | .node .or _ | .node .and (_ :: _) =>
    simp [hasCondition, Filter.isMatchAll] at none

/-- Merges queries one after another, each with its own connective. -/
def mergeAll (query : Query) (merges : List (Query × Connective)) : Query :=
  merges.foldl (fun merged next => merged.merge next.1 next.2) query

/-- The verdict after a list of merges: those without a condition are passed over, and each of
the others is asked after all before it. -/
def foldedVerdict (mode : Mode) (record : Record) (verdict : Verdict)
    (merges : List (Query × Connective)) : Verdict :=
  (merges.filter fun next => next.1.hasCondition).foldl
    (fun sofar next => sofar.followedBy next.2 (next.1.filter.evaluate mode record)) verdict

theorem evaluate_mergeAll (query : Query) (merges : List (Query × Connective)) (mode : Mode)
    (record : Record) :
    (query.mergeAll merges).filter.evaluate mode record =
      foldedVerdict mode record (query.filter.evaluate mode record) merges := by
  induction merges generalizing query with
  | nil => rfl
  | cons next rest ih =>
    have step : (query.mergeAll (next :: rest)).filter.evaluate mode record =
        foldedVerdict mode record ((query.merge next.1 next.2).filter.evaluate mode record) rest :=
      ih (query.merge next.1 next.2)
    rw [step]
    cases condition : next.1.hasCondition with
    | true =>
      rw [evaluate_merge condition]
      simp only [foldedVerdict, List.filter_cons, condition, if_true, List.foldl_cons]
    | false =>
      rw [filter_merge_of_not_hasCondition condition]
      simp only [foldedVerdict, List.filter_cons, condition, Bool.false_eq_true, if_false]

/-- A condition that is joined with AND has to hold, even if there is none to join. -/
theorem accepts_merge_and (query other : Query) (record : Record) :
    (query.merge other .and).accepts record = (query.accepts record && other.accepts record) := by
  cases condition : other.hasCondition with
  | true =>
    simp only [accepts, Filter.accepts, evaluate_merge condition, Verdict.followedBy_and]
  | false =>
    simp only [accepts, Filter.accepts, filter_merge_of_not_hasCondition condition,
      evaluate_of_not_hasCondition condition, Verdict.neutral, Connective.neutral, Bool.and_true]

theorem prepend_eq_ok {settings : Settings} {text condition : String}
    (run : prepend settings text condition = .ok query) :
    ∃ own required, parse settings text = .ok own ∧ parse settings condition = .ok required ∧
      query = own.merge required .and := by
  unfold prepend at run
  cases atText : parse settings text with
  | error fault => rw [atText] at run; cases run
  | ok own =>
    cases atCondition : parse settings condition with
    | error fault => rw [atText, atCondition] at run; cases run
    | ok required =>
      rw [atText, atCondition] at run
      cases run
      exact ⟨own, required, rfl, rfl, rfl⟩

/-- Merging composes filters as their connectives say, in both modes and over whole lists of
merges, and a condition put before a query cannot be escaped. -/
theorem merge_composes :
    (∀ (query other : Query) (connective : Connective), other.hasCondition = false →
      (query.merge other connective).filter = query.filter) ∧
    (∀ (query other : Query) (record : Record), other.hasCondition = true →
      (query.merge other .and).accepts record = (query.accepts record && other.accepts record) ∧
      (query.merge other .or).accepts record = (query.accepts record || other.accepts record) ∧
      (let mine := query.filter.evaluate .lenient record
      let theirs := other.filter.evaluate .lenient record
      (query.merge other .and).filter.evaluate .lenient record =
        ⟨mine.matched && theirs.matched, mine.assumed || (mine.matched && theirs.assumed)⟩ ∧
      (query.merge other .or).filter.evaluate .lenient record =
        ⟨mine.matched || theirs.matched, mine.assumed || (!mine.matched && theirs.assumed)⟩)) ∧
    (∀ (query : Query) (merges : List (Query × Connective)) (mode : Mode) (record : Record),
      (query.mergeAll merges).filter.evaluate mode record =
        foldedVerdict mode record (query.filter.evaluate mode record) merges) ∧
    ∀ (settings : Settings) (text condition : String) (query : Query),
      prepend settings text condition = .ok query →
      ∃ own required, parse settings text = .ok own ∧ parse settings condition = .ok required ∧
        ∀ record, query.accepts record = true ↔
          own.accepts record = true ∧ required.accepts record = true := by
  refine ⟨fun query other connective none => filter_merge_of_not_hasCondition none connective,
    ?_, evaluate_mergeAll, ?_⟩
  · intro query other record condition
    refine ⟨accepts_merge_and query other record, ?_, ?_, ?_⟩
    · simp only [accepts, Filter.accepts, evaluate_merge condition, Verdict.followedBy_or]
    · rw [evaluate_merge condition, Verdict.followedBy_and]
    · rw [evaluate_merge condition, Verdict.followedBy_or]
  · intro settings text condition query run
    obtain ⟨own, required, atText, atCondition, rfl⟩ := prepend_eq_ok run
    refine ⟨own, required, atText, atCondition, fun record => ?_⟩
    rw [accepts_merge_and, Bool.and_eq_true]

/-- A disjunction that a client wrote stays inside the condition put before it. -/
theorem merge_composes_tenant :
    let own : Query := ⟨.node .or [.leaf ⟨["a"], .relate .eq (.int 1)⟩,
      .leaf ⟨["b"], .relate .eq (.int 2)⟩], none, none, none⟩
    let required : Query := ⟨.leaf ⟨["tenant"], .relate .eq (.text "x")⟩, none, none, none⟩
    (own.merge matchAll .or).filter = own.filter ∧
      (own.merge required .or).accepts (.object [("tenant", .text "x")]) = true ∧
      ∃ first second, parse .builtIn "a = 1 OR b = 2" = .ok first ∧
        parse .builtIn "tenant = 'x'" = .ok second ∧ ∀ record,
          (own.merge required .and).accepts record = true ↔
            first.accepts record = true ∧ second.accepts record = true := by
  intro own required
  obtain ⟨skipped, joined, _, prepended⟩ := merge_composes
  refine ⟨skipped own matchAll .or rfl, ?_, ?_⟩
  · rw [(joined own required (.object [("tenant", .text "x")]) rfl).2.1]
    rfl
  · exact prepended .builtIn "a = 1 OR b = 2" "tenant = 'x'" (own.merge required .and) (by cbv)

end Query

end RecordQuery
