import RecordQuery.Query

namespace RecordQuery

/-- A query for records of which only a part is at hand. It remembers whether its last lenient
answer rested on a missing member, in which case the whole record has to be asked again. -/
structure Prefilter where
  query : Query
  assumed : Bool
deriving DecidableEq

namespace Prefilter

/-- A query that has not been asked yet. -/
def ofQuery (query : Query) : Prefilter :=
  ⟨query, false⟩

def verdict (prefilter : Prefilter) (record : Record) : Verdict :=
  prefilter.query.filter.evaluate .lenient record

/-- The lenient answer, and the query that remembers what it rested on. -/
def lenient (prefilter : Prefilter) (record : Record) : Bool × Prefilter :=
  let verdict := prefilter.verdict record
  (verdict.matched, { prefilter with assumed := verdict.assumed })

/-- The exact answer. It says nothing about what the last lenient one rested on. -/
def strict (prefilter : Prefilter) (record : Record) : Bool :=
  prefilter.query.accepts record

end Prefilter

end RecordQuery
