import RecordQuery.Filter.Evaluate
import RecordQuery.SortKey

namespace RecordQuery

/-- A query: which records, in which order, how many of them, and where a page begins. The
token of a page is opaque. -/
structure Query where
  filter : Filter
  order? : Option (List SortKey)
  limit? : Option Int64
  token? : Option String
deriving DecidableEq

namespace Query

def matchAll : Query :=
  ⟨.matchAll, none, none, none⟩

/-- Whether the query excludes records at all. A disjunction of nothing excludes them all. -/
def hasCondition (query : Query) : Bool :=
  !query.filter.isMatchAll

def accepts (query : Query) (record : Record) : Bool :=
  query.filter.accepts record

/-- The clauses that are present, as query text. A limit counts only if it is positive. -/
def clauses (query : Query) : List String :=
  let order := query.order?.map fun keys =>
    "ORDER BY " ++ String.intercalate ", " (keys.map SortKey.render)
  let limit := (query.limit?.filter (0 < ·)).map fun limit => "LIMIT " ++ integerText limit.toInt
  let token := query.token?.map fun token => "OFFSET " ++ (QuoteMark.around token).enclose token
  order.toList ++ limit.toList ++ token.toList

/-- The canonical text of a query: its filter and its clauses, with a blank between those that
are not empty. -/
def render (query : Query) : String :=
  let condition := query.filter.render false
  String.intercalate " " ((if condition.isEmpty then [] else [condition]) ++ query.clauses)

end Query

end RecordQuery
