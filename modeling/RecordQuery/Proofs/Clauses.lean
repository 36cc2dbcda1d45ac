import Mathlib
import RecordQuery.Proofs.Merge

namespace RecordQuery

namespace SortKey

/-- The fields that several lists of sort keys name. -/
def fields (lists : List (List SortKey)) : List String :=
  lists.flatten.map field

/-- The sort keys of several lists, of which a later one has precedence. The last list stands first, and
every list is without the fields that a later one names. -/
def layered : List (List SortKey) → List SortKey
  | [] => []
  | keys :: later => layered later ++ keys.filter fun key => key.field ∉ fields later

variable {keys latest : List SortKey} {lists front back : List (List SortKey)} {name : String}

/-- Dropping fields drops none for good, as a later list names them. -/
theorem mem_map_field_layered : name ∈ (layered lists).map field ↔ name ∈ fields lists := by
  induction lists with
  | nil => simp [layered, fields]
  | cons keys later ih =>
    have here : name ∈ fields (keys :: later) ↔ name ∈ keys.map field ∨ name ∈ fields later := by
      simp [fields]
    rw [layered, List.map_append, List.mem_append, ih, here]
    by_cases named : name ∈ fields later
    · simp [named]
    · have kept : name ∈ (keys.filter fun key => key.field ∉ fields later).map field ↔
          name ∈ keys.map field := by
        simp only [List.mem_map, List.mem_filter, decide_eq_true_eq]
        grind
      rw [kept, or_comm]

theorem preceded_eq_append (others keys : List SortKey) :
    preceded others keys = others ++ keys.filter fun key => key.field ∉ others.map field := by
  have same (key : SortKey) : (!others.any fun other => other.field == key.field) =
      decide (key.field ∉ others.map field) := by
    rw [Bool.eq_iff_iff]
    simp
  simp only [preceded, same]

/-- Lists may be put together in any grouping. -/
theorem layered_append (front back : List (List SortKey)) :
    layered (front ++ back) = preceded (layered back) (layered front) := by
  induction front with
  | nil => simp [layered, preceded]
  | cons keys front ih =>
    have fieldsAppend (key : SortKey) : key.field ∈ fields (front ++ back) ↔
        key.field ∈ fields front ∨ key.field ∈ fields back := by
      simp [fields]
    rw [List.cons_append, layered, ih, layered, preceded_eq_append, preceded_eq_append,
      List.filter_append, List.append_assoc, List.filter_filter]
    simp only [mem_map_field_layered, fieldsAppend, not_or, Bool.decide_and, Bool.and_comm]

theorem layered_singleton (keys : List SortKey) : layered [keys] = keys := by
  simp [layered, fields]

/-- The latest list that names a field decides on it. -/
theorem filter_field_layered (named : name ∈ latest.map field) (unnamed : name ∉ fields back) :
    (layered (front ++ latest :: back)).filter (fun key => key.field == name) =
      latest.filter fun key => key.field == name := by
  have notBehind : (layered back).filter (fun key => key.field == name) = [] := by
    rw [← mem_map_field_layered] at unnamed
    simp only [List.filter_eq_nil_iff, beq_iff_eq]
    rintro key member rfl
    exact unnamed (List.mem_map_of_mem member)
  have notBefore : ((layered front).filter fun key =>
      key.field ∉ (layered (latest :: back)).map field).filter (fun key => key.field == name) = [] := by
    have present : name ∈ (layered (latest :: back)).map field := by
      rw [mem_map_field_layered]
      simpa [fields] using Or.inl named
    simp only [List.filter_eq_nil_iff, beq_iff_eq, List.mem_filter, decide_eq_true_eq]
    rintro key ⟨_, absent⟩ rfl
    exact absent present
  have kept : (latest.filter fun key => key.field ∉ fields back).filter (fun key => key.field == name) =
      latest.filter fun key => key.field == name := by
    rw [List.filter_filter]
    refine List.filter_congr fun key _ => ?_
    by_cases same : key.field = name
    · simp [same, unnamed]
    · simp [same]
  rw [layered_append, preceded_eq_append, List.filter_append, notBefore, layered, List.filter_append,
    notBehind, kept, List.nil_append, List.append_nil]

theorem nodup_map_field_layered (single : ∀ keys ∈ lists, (keys.map field).Nodup) :
    ((layered lists).map field).Nodup := by
  induction lists with
  | nil => simp [layered]
  | cons keys later ih =>
    obtain ⟨here, others⟩ := List.forall_mem_cons.mp single
    have kept : ((keys.filter fun key => key.field ∉ fields later).map field).Nodup :=
      here.sublist (List.filter_sublist.map field)
    rw [layered, List.map_append]
    refine (ih others).append kept fun name inLater inKept => ?_
    rw [mem_map_field_layered] at inLater
    obtain ⟨key, member, rfl⟩ := List.mem_map.mp inKept
    have absent : key.field ∉ fields later := by simpa using (List.mem_filter.mp member).2
    exact absent inLater

end SortKey

/-- Queries that are merged one into another, in any grouping. -/
inductive Merges
  | single (query : Query)
  | merged (connective : Connective) (earlier later : Merges)

namespace Merges

/-- The query that the merges come to. -/
def result : Merges → Query
  | single query => query
  | merged connective earlier later => earlier.result.merge later.result connective

/-- The queries that are merged, the earliest first. -/
def queries : Merges → List Query
  | single query => [query]
  | merged _ earlier later => earlier.queries ++ later.queries

theorem limit?_result (merges : Merges) :
    merges.result.limit? = (merges.queries.filterMap Query.limit?).getLast? := by
  induction merges with
  | single query => cases limit : query.limit? <;> simp [result, queries, limit]
  | merged connective earlier later atEarlier atLater =>
    simp [result, queries, Query.merge, atEarlier, atLater, List.getLast?_append]

theorem token?_result (merges : Merges) :
    merges.result.token? = (merges.queries.filterMap Query.token?).getLast? := by
  induction merges with
  | single query => cases token : query.token? <;> simp [result, queries, token]
  | merged connective earlier later atEarlier atLater =>
    simp [result, queries, Query.merge, atEarlier, atLater, List.getLast?_append]

/-- The sort keys of the merged query come from the queries that have sort keys at all. -/
theorem order?_result (merges : Merges) :
    merges.result.order? =
      if merges.queries.filterMap Query.order? = [] then none
      else some (SortKey.layered (merges.queries.filterMap Query.order?)) := by
  induction merges with
  | single query =>
    cases order : query.order? with
    | none => simp [result, queries, order]
    | some keys => simp [result, queries, order, SortKey.layered_singleton]
  | merged connective earlier later atEarlier atLater =>
    simp only [result, queries, Query.merge, atEarlier, atLater, List.filterMap_append]
    generalize earlier.queries.filterMap Query.order? = front
    generalize later.queries.filterMap Query.order? = back
    by_cases noneBehind : back = []
    · simp [noneBehind]
    by_cases noneBefore : front = []
    · simp [noneBehind, noneBefore]
    · simp [noneBehind, noneBefore, SortKey.layered_append]

/-- Merges one after another are a grouping of their own. -/
theorem exists_result_eq_mergeAll (query : Query) (later : List (Query × Connective)) :
    ∃ merges : Merges, merges.result = query.mergeAll later ∧
      merges.queries = query :: later.map Prod.fst := by
  have onwards (before : Merges) : ∃ merges : Merges,
      merges.result = before.result.mergeAll later ∧
        merges.queries = before.queries ++ later.map Prod.fst := by
    induction later generalizing before with
    | nil => exact ⟨before, rfl, by simp⟩
    | cons next rest ih =>
      obtain ⟨merges, result, queries⟩ := ih (.merged next.2 before (.single next.1))
      exact ⟨merges, result, by simp [queries, Merges.queries]⟩
  exact onwards (.single query)

end Merges

namespace Query

/-- A query without its condition: what it says about the order, the limit and the page. -/
def unfiltered (query : Query) : Query :=
  { query with filter := .matchAll }

/-- Merges of queries that say the same, their conditions apart, say the same. -/
theorem unfiltered_result_congr {merges others : Merges}
    (same : merges.queries.map unfiltered = others.queries.map unfiltered) :
    merges.result.unfiltered = others.result.unfiltered := by
  have alike {α : Type} {clause : Query → Option α}
      (unconditional : ∀ query : Query, clause query.unfiltered = clause query) :
      merges.queries.filterMap clause = others.queries.filterMap clause := by
    have mapped := congrArg (List.filterMap clause) same
    simpa [List.filterMap_map, Function.comp_def, unconditional] using mapped
  have order : merges.result.order? = others.result.order? := by
    rw [merges.order?_result, others.order?_result, alike fun query => rfl]
  have limit : merges.result.limit? = others.result.limit? := by
    rw [merges.limit?_result, others.limit?_result, alike fun query => rfl]
  have token : merges.result.token? = others.result.token? := by
    rw [merges.token?_result, others.token?_result, alike fun query => rfl]
  simp only [unfiltered, order, limit, token]

/-- What merges make of the clauses of queries. The last limit counts and so does the last page token. The
sort keys of later queries stand in front of those of earlier ones, and on each field the latest query
that names it decides. Neither the grouping of the merges nor the conditions matter. -/
theorem mergeAll_clauses (query : Query) (later : List (Query × Connective)) :
    let queries := query :: later.map Prod.fst
    let lists := queries.filterMap order?
    let merged := query.mergeAll later
    merged.limit? = (queries.filterMap limit?).getLast? ∧
    merged.token? = (queries.filterMap token?).getLast? ∧
    (merged.order? = none ↔ ∀ each ∈ queries, each.order? = none) ∧
    (lists ≠ [] → merged.order? = some (SortKey.layered lists)) ∧
    (∀ merges : Merges, merges.queries.map unfiltered = queries.map unfiltered →
      merges.result.unfiltered = merged.unfiltered) ∧
    (∀ keys, merged.order? = some keys → ∀ front latest back name,
      lists = front ++ latest :: back → name ∈ latest.map SortKey.field →
        name ∉ SortKey.fields back →
          keys.filter (fun key => key.field == name) = latest.filter fun key => key.field == name) ∧
    (∀ keys, merged.order? = some keys → (∀ list ∈ lists, (list.map SortKey.field).Nodup) →
      (keys.map SortKey.field).Nodup) := by
  intro queries lists merged
  obtain ⟨merges, result, leaves⟩ := Merges.exists_result_eq_mergeAll query later
  have order : merged.order? = if lists = [] then none else some (SortKey.layered lists) := by
    have atResult := merges.order?_result
    rwa [result, leaves] at atResult
  have layered {keys : List SortKey} (present : merged.order? = some keys) :
      keys = SortKey.layered lists := by
    rw [order] at present
    split at present
    · cases present
    · exact (Option.some.inj present).symm
  refine ⟨?_, ?_, ?_, ?_, ?_, ?_, ?_⟩
  · have atResult := merges.limit?_result
    rwa [result, leaves] at atResult
  · have atResult := merges.token?_result
    rwa [result, leaves] at atResult
  · rw [order]
    simp [lists, List.filterMap_eq_nil_iff]
  · intro nonempty
    rw [order, if_neg nonempty]
  · intro others same
    have alike : others.result.unfiltered = merges.result.unfiltered :=
      unfiltered_result_congr (by rw [same, leaves])
    rwa [result] at alike
  · intro keys present front latest back name split named unnamed
    rw [layered present, split]
    exact SortKey.filter_field_layered named unnamed
  · intro keys present single
    rw [layered present]
    exact SortKey.nodup_map_field_layered single

/-- A field that two queries sort by, with a query between them that says nothing about the order. -/
theorem mergeAll_clauses_overlapping :
    let first : Query := ⟨.matchAll, some [⟨"a", .asc⟩, ⟨"b", .desc⟩], some 1, none⟩
    let second : Query := ⟨.node .or [], none, some 2, some "page"⟩
    let third : Query := ⟨.matchAll, some [⟨"c", .asc⟩, ⟨"b", .asc⟩], none, none⟩
    let merged := first.mergeAll [(second, .or), (third, .and)]
    let keys : List SortKey := [⟨"c", .asc⟩, ⟨"b", .asc⟩, ⟨"a", .asc⟩]
    merged.order? = some keys ∧ merged.limit? = some 2 ∧
      (first.merge (second.merge third .or) .and).unfiltered = merged.unfiltered ∧
      keys.filter (fun key => key.field == "b") = [⟨"b", .asc⟩] ∧
      (keys.map SortKey.field).Nodup := by
  intro first second third merged keys
  obtain ⟨limit, _, _, order, grouping, direction, single⟩ :=
    mergeAll_clauses first [(second, .or), (third, .and)]
  have present : merged.order? = some keys := order (by decide)
  refine ⟨present, limit, ?_, ?_, ?_⟩
  · exact grouping (.merged .and (.single first) (.merged .or (.single second) (.single third))) rfl
  · exact direction keys present [[⟨"a", .asc⟩, ⟨"b", .desc⟩]] [⟨"c", .asc⟩, ⟨"b", .asc⟩] [] "b" rfl
      (by decide) (by decide)
  · exact single keys present (by decide)

end Query

end RecordQuery
