import RecordQuery.Query.Parse

namespace RecordQuery

/-- Joins two filters. A root that already has the connective takes the other filter as one
more child, and any other root is joined with it under a new node. -/
def Filter.joined (connective : Connective) (left right : Filter) : Filter :=
  match left with
  | .node own children =>
    if own = connective then .node own (children ++ [right]) else .node connective [left, right]
  | .leaf _ => .node connective [left, right]

/-- Sort keys with others in front of them. A field that the others name is dropped, so its
direction is the one that they give. -/
def SortKey.preceded (others keys : List SortKey) : List SortKey :=
  others ++ keys.filter fun key => !others.any fun other => other.field == key.field

namespace Query

/-- Merges another query into a query. Their filters are joined unless the other has no
condition. Its limit and its page token replace those of the query, and its sort keys come
first. -/
def merge (query other : Query) (connective : Connective) : Query where
  filter := if other.hasCondition then query.filter.joined connective other.filter else query.filter
  order? :=
    match other.order?, query.order? with
    | some others, some keys => some (SortKey.preceded others keys)
    | some others, none => some others
    | none, keys? => keys?
  limit? := other.limit?.or query.limit?
  token? := other.token?.or query.token?

/-- Reads a query and joins a condition to it that has to hold as well. The query is read
first. -/
def prepend (settings : Settings) (text condition : String) : Except Error Query := do
  let query ← parse settings text
  let required ← parse settings condition
  return query.merge required .and

end Query

end RecordQuery
