import RecordQuery.Connective
import RecordQuery.Like.Pattern
import RecordQuery.Token

namespace RecordQuery

inductive Test
  | relate (relation : Relation) (value : Scalar)
  | like (pattern : Like.Pattern)
  | isIn (values : List Scalar)
  | contains (text : String)
deriving DecidableEq

structure Comparison where
  path : List String
  test : Test
deriving DecidableEq

/-- A tree of comparisons. Nodes may have any number of children, and a child may have the
connective of its parent. -/
inductive Filter
  | leaf (comparison : Comparison)
  | node (connective : Connective) (children : List Filter)

def dotted (path : List String) : String :=
  String.intercalate "." path

namespace Test

def operator : Test → String
  | .relate relation _ => relation.spelling
  | .like _ => Keyword.like.spelling
  | .isIn _ => Keyword.isIn.spelling
  | .contains _ => Keyword.contains.spelling

/-- The literal of a test, which is a list for a membership test. -/
def operand : Test → Value
  | .relate _ value => .scalar value
  | .like pattern => .scalar (.text pattern.text)
  | .isIn values => .list (values.map .scalar)
  | .contains text => .scalar (.text text)

end Test

def Comparison.render (comparison : Comparison) : String :=
  dotted comparison.path ++ " " ++ comparison.test.operator ++ " "
    ++ comparison.test.operand.render

namespace Filter

/-- The filter that every record passes: a conjunction of nothing. -/
def matchAll : Filter :=
  .node .and []

/-- Whether a filter is the empty conjunction. An empty disjunction is not: it is a
condition that no record meets. -/
def isMatchAll : Filter → Bool
  | .node .and [] => true
  | _ => false

mutual

/-- The filter as query text. Below the root a node stands in parentheses. -/
def render (nested : Bool) : Filter → String
  | .leaf comparison => comparison.render
  | .node connective children =>
    let joined := String.intercalate (" " ++ connective.spelling ++ " ") (renderAll children)
    if nested then "( " ++ joined ++ " )" else joined

def renderAll : List Filter → List String
  | [] => []
  | child :: rest => render true child :: renderAll rest

end

mutual

def paths : Filter → List String
  | .leaf comparison => [dotted comparison.path]
  | .node _ children => pathsOfAll children

def pathsOfAll : List Filter → List String
  | [] => []
  | child :: rest => paths child ++ pathsOfAll rest

end

/-- The paths that a filter refers to, each once and in order of appearance. -/
def attributes (filter : Filter) : List String :=
  filter.paths.eraseDups

mutual

def same : Filter → Filter → Bool
  | .leaf left, .leaf right => left == right
  | .node left children, .node right others => left == right && sameAll children others
  | _, _ => false

def sameAll : List Filter → List Filter → Bool
  | [], [] => true
  | left :: lefts, right :: rights => same left right && sameAll lefts rights
  | _, _ => false

end

mutual

theorem same_iff_eq (left right : Filter) : same left right = true ↔ left = right := by
  match left, right with
  | .leaf left, .leaf right => simp [same]
  | .leaf _, .node _ _ => simp [same]
  | .node _ _, .leaf _ => simp [same]
  | .node _ children, .node _ others => simp [same, sameAll_iff_eq children others]

theorem sameAll_iff_eq (lefts rights : List Filter) :
    sameAll lefts rights = true ↔ lefts = rights := by
  match lefts, rights with
  | [], [] => simp [sameAll]
  | [], _ :: _ => simp [sameAll]
  | _ :: _, [] => simp [sameAll]
  | left :: lefts, right :: rights =>
    simp [sameAll, same_iff_eq left right, sameAll_iff_eq lefts rights]

end

instance : DecidableEq Filter := fun left right =>
  decidable_of_iff (same left right = true) (same_iff_eq left right)

end Filter

end RecordQuery
