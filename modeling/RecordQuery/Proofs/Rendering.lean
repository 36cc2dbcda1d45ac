import RecordQuery.Proofs.Separation
import RecordQuery.Query.Build

namespace RecordQuery

open Token

/-- Whether a string can be a literal: one of the two quotes does not occur in it. -/
def QuoteMark.Quotable (text : String) : Prop :=
  '"' ∉ text.toList ∨ '\'' ∉ text.toList

theorem QuoteMark.around_char_not_mem {text : String} (quotable : Quotable text) :
    (around text).char ∉ text.toList := by
  unfold around
  split
  · rename_i both
    exact both.2
  · rename_i other
    rcases quotable with double | single
    · exact double
    · intro member
      exact other ⟨member, single⟩

/-- The numeral of an integer in decimal notation. -/
def Numeral.ofInt (value : Int) : Numeral :=
  ⟨decide (value < 0), String.ofList (Nat.toDigits 10 value.natAbs)⟩

namespace Numeral

theorem spelling_ofInt (value : Int) : (ofInt value).spelling = integerText value := by
  by_cases negative : value < 0
  · simp only [spelling, ofInt, negative, decide_true, if_true, integerText, integerDigits]
    exact String.toList_inj.mp (by simp)
  · simp only [spelling, ofInt, negative, decide_false, Bool.false_eq_true, if_false, integerText,
      integerDigits]

theorem value_ofInt (value : Int) : (ofInt value).value = value := by
  simp only [Numeral.value, ofInt, String.toList_ofList, Nat.ofDigitChars_ten_toDigits,
    decide_eq_true_eq]
  split <;> omega

theorem wellFormed_ofInt (value : Int) : (TokenKind.integer (ofInt value)).WellFormed := by
  simp only [TokenKind.WellFormed, ofInt, String.toList_ofList]
  exact ⟨Nat.toDigits_ne_nil,
    fun d member => Nat.isDigit_of_mem_toDigits (by decide) (by decide) member⟩

/-- A word is read back from its notation, the least one included. -/
theorem toWord_ofInt (word : Int64) (column : Nat) :
    (ofInt word.toInt).toWord column = .ok word := by
  have lower := Int64.minValue_le_toInt word
  have upper := Int64.toInt_le word
  rw [toWord, value_ofInt, if_pos ⟨lower, upper⟩, Int64.ofInt_toInt]

end Numeral

namespace Scalar

def kind : Scalar → TokenKind
  | .bool value => .boolean value
  | .int value => .integer (.ofInt value.toInt)
  | .text value => .text ⟨.around value, value⟩

def Writable : Scalar → Prop
  | .text value => QuoteMark.Quotable value
  | _ => True

theorem spelling_kind (literal : Scalar) : literal.kind.spelling = literal.render := by
  cases literal with
  | bool value => rfl
  | int value => exact Numeral.spelling_ofInt value.toInt
  | text value => rfl

theorem wellFormed_kind {literal : Scalar} (writable : literal.Writable) :
    literal.kind.WellFormed := by
  cases literal with
  | bool value => trivial
  | int value => exact Numeral.wellFormed_ofInt value.toInt
  | text value => exact QuoteMark.around_char_not_mem writable

theorem spells_render {literal : Scalar} (writable : literal.Writable) :
    Spells literal.render.toList [literal.kind] := by
  rw [← spelling_kind]
  exact .token (wellFormed_kind writable)

end Scalar

namespace Test

def kinds : Test → List TokenKind
  | .relate relation literal => [.relation relation, literal.kind]
  | .like pattern => [.keyword .like, (Scalar.text pattern.text).kind]
  | .isIn literals =>
    [.keyword .isIn, .punctuation .openList] ++
      ([.punctuation .comma].intercalate (literals.map fun literal => [literal.kind]) ++
        [.punctuation .closeList])
  | .contains text => [.keyword .contains, (Scalar.text text).kind]

/-- Whether a test can be written and read again. A pattern has to be the one that its text
compiles to, and a list must not be empty. -/
def Writable : Test → Prop
  | .relate _ literal => literal.Writable
  | .like pattern =>
    QuoteMark.Quotable pattern.text ∧ Like.Pattern.compile pattern.text = .ok pattern
  | .isIn literals => literals ≠ [] ∧ ∀ literal ∈ literals, literal.Writable
  | .contains text => QuoteMark.Quotable text

end Test

theorem Token.Separated.blank (rest : List Char) : Separated (' ' :: rest) := by
  intro c atHead
  rw [← Option.some.inj (Option.mem_def.mp atHead)]
  exact Or.inl (by decide)

theorem Token.leads_comma : Leads [',', ' '] [.punctuation .comma] :=
  (Leads.punctuation .comma).append .blank

theorem Token.separated_comma : Separated [','] := by
  intro c atHead
  exact Or.inr (Or.inl (Option.some.inj (Option.mem_def.mp atHead)).symm)

theorem Token.leads_keyword (word : Keyword) :
    Leads (word.spelling.toList ++ [' ']) [.keyword word] :=
  (Spells.keyword word).append_leads (.blank []) .blank

theorem Value.renderAll_scalars (literals : List Scalar) :
    renderAll (literals.map Value.scalar) = literals.map Scalar.render := by
  induction literals with
  | nil => rfl
  | cons literal rest ih => rw [List.map_cons, renderAll, ih, render, List.map_cons]

theorem Scalar.spells_list {literals : List Scalar}
    (writable : ∀ literal ∈ literals, literal.Writable) :
    Spells (Value.list (literals.map .scalar)).render.toList
      ([.punctuation .openList] ++
        ([.punctuation .comma].intercalate (literals.map fun literal => [literal.kind]) ++
          [.punctuation .closeList])) := by
  have items := Spells.intercalate separated_comma leads_comma literals
    fun literal member => spells_render (writable literal member)
  have close : Spells [']'] [.punctuation .closeList] := (Leads.punctuation .closeList).spells
  have separated : Separated [']'] := by
    intro c atHead
    exact Or.inr (Or.inr (Option.some.inj (Option.mem_def.mp atHead)).symm)
  have opening : Leads ['['] [.punctuation .openList] := .punctuation .openList
  have whole := opening.append_spells (items.append separated close)
  simpa [Value.render, Value.renderAll_scalars, bracketed, String.toList_intercalate,
    Function.comp_def] using whole

namespace Test

theorem spells_render {test : Test} (writable : test.Writable) :
    Spells (' ' :: (test.operator.toList ++ ' ' :: test.operand.render.toList)) test.kinds := by
  have word (keyword : Keyword) {text : List Char} {kinds : List TokenKind}
      (literal : Spells text kinds) :
      Spells (' ' :: (keyword.spelling.toList ++ ' ' :: text)) ([.keyword keyword] ++ kinds) := by
    simpa using (Leads.blank.append (leads_keyword keyword)).append_spells literal
  cases test with
  | relate relation literal =>
    have spaced := Leads.blank.append ((Spells.relation relation).append_leads (.blank []) .blank)
    simpa [kinds, operator, operand, Value.render] using
      spaced.append_spells (Scalar.spells_render writable)
  | like pattern => exact word .like (Scalar.spells_render writable.1)
  | isIn literals => exact word .isIn (Scalar.spells_list writable.2)
  | contains text => exact word .contains (Scalar.spells_render writable)

end Test

theorem splitDots_ne_nil (letters : List Char) : splitDots letters ≠ [] := by
  cases letters with
  | nil => exact List.cons_ne_nil _ _
  | cons c rest =>
    rw [splitDots]
    split
    · exact List.cons_ne_nil _ _
    · split <;> exact List.cons_ne_nil _ _

theorem intercalate_splitDots (letters : List Char) :
    ['.'].intercalate (splitDots letters) = letters := by
  induction letters with
  | nil => rfl
  | cons c rest ih =>
    obtain ⟨part, others, parts⟩ := List.exists_cons_of_ne_nil (splitDots_ne_nil rest)
    rw [parts] at ih
    by_cases dot : c = '.'
    · rw [splitDots, if_pos dot, parts, List.intercalate_cons_cons, ih, dot]
      rfl
    · rw [splitDots, if_neg dot, parts, List.intercalate_cons_cons_left, ih]

/-- The parts of a name with dots between them are the name. -/
theorem dotted_pathOfName (name : String) : dotted (pathOfName name) = name := by
  refine String.toList_inj.mp ?_
  simpa [dotted, pathOfName, String.toList_intercalate, Function.comp_def] using
    intercalate_splitDots name.toList

namespace Comparison

def kinds (comparison : Comparison) : List TokenKind :=
  .identifier (dotted comparison.path) :: comparison.test.kinds

/-- Whether a comparison can be written and read again: its path comes from an identifier. -/
def Writable (comparison : Comparison) : Prop :=
  (∃ name, (TokenKind.identifier name).WellFormed ∧ comparison.path = pathOfName name) ∧
    comparison.test.Writable

theorem spells_render {comparison : Comparison} (writable : comparison.Writable) :
    Spells comparison.render.toList comparison.kinds := by
  obtain ⟨⟨name, wellFormed, path⟩, test⟩ := writable
  have first : Spells name.toList [.identifier name] := .token wellFormed
  have whole := first.append (.blank _) (Test.spells_render test)
  simpa [render, kinds, path, dotted_pathOfName] using whole

end Comparison

def Connective.keyword : Connective → Keyword
  | .and => .and
  | .or => .or

theorem Connective.spelling_keyword (connective : Connective) :
    connective.keyword.spelling = connective.spelling := by
  cases connective <;> rfl

namespace Filter

mutual

/-- The comparisons of a filter from left to right. -/
def comparisons : Filter → List Comparison
  | .leaf comparison => [comparison]
  | .node _ children => comparisonsOfAll children

def comparisonsOfAll : List Filter → List Comparison
  | [] => []
  | child :: rest => child.comparisons ++ comparisonsOfAll rest

end

/-- Whether all comparisons of a filter can be written and read again. -/
def Writable (filter : Filter) : Prop :=
  ∀ comparison ∈ filter.comparisons, comparison.Writable

mutual

/-- The tokens of a filter. Below the root a node stands in parentheses. -/
def kinds (nested : Bool) : Filter → List TokenKind
  | .leaf comparison => comparison.kinds
  | .node connective children =>
    let joined := [.keyword connective.keyword].intercalate (kindsOfAll children)
    if nested then .punctuation .openGroup :: (joined ++ [.punctuation .closeGroup]) else joined

def kindsOfAll : List Filter → List (List TokenKind)
  | [] => []
  | child :: rest => child.kinds true :: kindsOfAll rest

end

theorem renderAll_eq_map (children : List Filter) :
    renderAll children = children.map (render true) := by
  induction children with
  | nil => rfl
  | cons child rest ih => rw [renderAll, ih, List.map_cons]

theorem kindsOfAll_eq_map (children : List Filter) :
    kindsOfAll children = children.map (kinds true) := by
  induction children with
  | nil => rfl
  | cons child rest ih => rw [kindsOfAll, ih, List.map_cons]

theorem comparisonsOfAll_eq_flatMap (children : List Filter) :
    comparisonsOfAll children = children.flatMap comparisons := by
  induction children with
  | nil => rfl
  | cons child rest ih => rw [comparisonsOfAll, ih, List.flatMap_cons]

theorem Writable.child {connective : Connective} {children : List Filter}
    (writable : (node connective children).Writable) {child : Filter} (member : child ∈ children) :
    child.Writable := by
  intro comparison inChild
  refine writable comparison ?_
  rw [comparisons, comparisonsOfAll_eq_flatMap]
  exact List.mem_flatMap.mpr ⟨child, member, inChild⟩

/-- The canonical text of a filter has the tokens of the filter. -/
theorem spells_render {filter : Filter} (writable : filter.Writable) (nested : Bool) :
    Spells (filter.render nested).toList (filter.kinds nested) := by
  match filter with
  | .leaf comparison =>
    exact Comparison.spells_render (writable comparison (by simp [comparisons]))
  | .node connective children =>
    have joined := Spells.intercalate (.blank [])
      (Leads.blank.append (leads_keyword connective.keyword)) children
      fun child member => Filter.spells_render (writable.child member) true
    have opening := (Leads.punctuation .openGroup).append .blank
    have close := Leads.blank.append (Leads.punctuation .closeGroup)
    have whole := opening.append_spells (joined.append (.blank _) close.spells)
    cases nested with
    | true =>
      simpa [render, kinds, renderAll_eq_map, kindsOfAll_eq_map, String.toList_intercalate,
        Function.comp_def, Connective.spelling_keyword, Punctuation.spelling] using whole
    | false =>
      simpa [render, kinds, renderAll_eq_map, kindsOfAll_eq_map, String.toList_intercalate,
        Function.comp_def, Connective.spelling_keyword] using joined
termination_by filter
decreasing_by
  have smaller := List.sizeOf_lt_of_mem member
  simp only [node.sizeOf_spec]
  omega

end Filter

def Direction.keyword : Direction → Keyword
  | .asc => .asc
  | .desc => .desc

namespace SortKey

def kinds (key : SortKey) : List TokenKind :=
  [.identifier key.field, .keyword key.direction.keyword]

theorem spells_render {key : SortKey} (wellFormed : (TokenKind.identifier key.field).WellFormed) :
    Spells key.render.toList key.kinds := by
  have field : Spells key.field.toList [.identifier key.field] := .token wellFormed
  have direction : Spells key.direction.spelling.toList [.keyword key.direction.keyword] := by
    cases key.direction with
    | asc => exact .keyword .asc
    | desc => exact .keyword .desc
  simpa [render, kinds] using field.append (.blank _) (Leads.blank.append_spells direction)

end SortKey

namespace Query

/-- The clause with the sort keys as text and as tokens, if there is one. -/
def orderPart (query : Query) : List (String × List TokenKind) :=
  (query.order?.map fun keys =>
    ("ORDER BY " ++ String.intercalate ", " (keys.map SortKey.render),
      [.keyword .order, .keyword .sortedBy] ++
        [.punctuation .comma].intercalate (keys.map SortKey.kinds))).toList

def limitPart (query : Query) : List (String × List TokenKind) :=
  ((query.limit?.filter (0 < ·)).map fun limit =>
    ("LIMIT " ++ integerText limit.toInt, [.keyword .limit, (Scalar.int limit).kind])).toList

def tokenPart (query : Query) : List (String × List TokenKind) :=
  (query.token?.map fun token =>
    ("OFFSET " ++ (QuoteMark.around token).enclose token,
      [.keyword .offset, (Scalar.text token).kind])).toList

/-- The clauses of a query as text, each with its tokens. -/
def clauseParts (query : Query) : List (String × List TokenKind) :=
  query.orderPart ++ query.limitPart ++ query.tokenPart

def kinds (query : Query) : List TokenKind :=
  query.filter.kinds false ++ (query.clauseParts.map Prod.snd).flatten

/-- Whether a query can be written and read again. -/
structure Writable (query : Query) : Prop where
  filter : query.filter.Writable
  order : ∀ keys, query.order? = some keys →
    keys ≠ [] ∧ ∀ key ∈ keys, (TokenKind.identifier key.field).WellFormed
  token : ∀ token, query.token? = some token → QuoteMark.Quotable token

/-- The query that consists of a filter. -/
def ofFilter (filter : Filter) : Query :=
  ⟨filter, none, none, none⟩

theorem writable_ofFilter {filter : Filter} (writable : filter.Writable) :
    (ofFilter filter).Writable := by
  refine ⟨writable, fun keys missing => ?_, fun token missing => ?_⟩
  · cases missing
  · cases missing

theorem clauses_eq_map (query : Query) : query.clauses = query.clauseParts.map Prod.fst := by
  obtain ⟨filter, order?, limit?, token?⟩ := query
  cases order? <;> cases token? <;> cases atLimit : limit?.filter (0 < ·) <;>
    simp [clauses, clauseParts, orderPart, limitPart, tokenPart, atLimit]

theorem spells_clause {query : Query} (writable : query.Writable)
    {part : String × List TokenKind} (member : part ∈ query.clauseParts) :
    Spells part.1.toList part.2 := by
  simp only [clauseParts, orderPart, limitPart, tokenPart, List.mem_append, Option.mem_toList,
    Option.map_eq_some_iff] at member
  rcases member with (⟨keys, atOrder, rfl⟩ | ⟨limit, atLimit, rfl⟩) | ⟨token, atToken, rfl⟩
  · have fields := Spells.intercalate separated_comma leads_comma keys
      fun key member => SortKey.spells_render ((writable.order keys atOrder).2 key member)
    have words := (leads_keyword .order).append (leads_keyword .sortedBy)
    simpa [String.toList_intercalate, Function.comp_def, Keyword.spelling] using
      words.append_spells fields
  · have number : (Scalar.int limit).Writable := trivial
    simpa [Keyword.spelling, Scalar.render] using
      (leads_keyword .limit).append_spells (Scalar.spells_render number)
  · have text : (Scalar.text token).Writable := writable.token token atToken
    simpa [Keyword.spelling, Scalar.render] using
      (leads_keyword .offset).append_spells (Scalar.spells_render text)

theorem intercalate_nil_eq_flatten {α : Type} (parts : List (List α)) :
    [].intercalate parts = parts.flatten := by
  induction parts with
  | nil => rfl
  | cons part parts ih =>
    cases parts with
    | nil => simp
    | cons next parts => rw [List.intercalate_cons_cons, ih]; simp

/-- The canonical text of a query has the tokens of the query. -/
theorem spells_render {query : Query} (writable : query.Writable) :
    Spells query.render.toList query.kinds := by
  have condition := Filter.spells_render writable.filter false
  have joined (parts : List (String × List TokenKind))
      (spells : ∀ part ∈ parts, Spells part.1.toList part.2) :
      Spells (String.intercalate " " (parts.map Prod.fst)).toList (parts.map Prod.snd).flatten := by
    rw [String.toList_intercalate, List.map_map, ← intercalate_nil_eq_flatten]
    exact Spells.intercalate (.blank []) .blank parts spells
  unfold render kinds
  simp only [clauses_eq_map]
  split
  · rename_i empty
    have noText : (query.filter.render false).toList = [] := by
      rw [String.isEmpty_iff.mp empty]
      rfl
    rw [condition.scans.kinds_eq_nil noText, List.nil_append, List.nil_append]
    exact joined query.clauseParts fun part member => spells_clause writable member
  · have whole := joined ((query.filter.render false, query.filter.kinds false) ::
      query.clauseParts) fun part member => by
        rcases List.mem_cons.mp member with rfl | inClauses
        · exact condition
        · exact spells_clause writable inClauses
    simpa using whole

end Query

end RecordQuery
