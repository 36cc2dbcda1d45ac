import RecordQuery.Proofs.Meaning
import RecordQuery.Proofs.RoundTrip

namespace RecordQuery

namespace Token

/-- The names that mean something else: the keywords and the boolean literals. -/
def reservedNames : List String :=
  Keyword.all.map Keyword.spelling ++ [booleanText true, booleanText false]

/-- Whether a name is an identifier. It begins with a letter or an underscore, goes on with letters,
digits, underscores and dots, and is not reserved. -/
def IsIdentifier (name : String) : Prop :=
  IsWord name ∧ name ∉ reservedNames

theorem ofName_eq_identifier_iff {name : String} :
    ofName name = .identifier name ↔ name ∉ reservedNames := by
  have words : name ∈ Keyword.all.map Keyword.spelling ↔
      ∃ word ∈ Keyword.all, (word.spelling == name) = true := by
    simp only [List.mem_map, beq_iff_eq]
  rw [reservedNames, List.mem_append, List.mem_pair, words]
  unfold ofName
  split
  · rename_i isTrue
    simp [isTrue]
  split
  · rename_i isFalse
    simp [isFalse]
  split
  · rename_i word found
    have member := List.mem_of_find?_eq_some found
    have same := List.find?_some found
    simp only [reduceCtorEq, false_iff, not_not]
    exact Or.inl ⟨word, member, same⟩
  · rename_i noTrue noFalse _ missing
    simp only [List.find?_eq_none] at missing
    simp only [true_iff, not_or]
    exact ⟨fun ⟨word, member, same⟩ => missing word member same, noTrue, noFalse⟩

theorem wellFormed_identifier_iff {name : String} :
    (TokenKind.identifier name).WellFormed ↔ IsIdentifier name :=
  and_congr_right fun _ => ofName_eq_identifier_iff

end Token

open Token Place

namespace Query

/-- The queries that texts denote. The filter lets everything pass or is in the form in which filters
are built, and everything in the query can be written. The limit may be any word. -/
structure InNormalForm (query : Query) : Prop where
  shape : query.filter = .matchAll ∨ query.filter.Normal
  paths : ∀ comparison ∈ query.filter.comparisons,
    ∃ name, IsIdentifier name ∧ comparison.path = pathOfName name
  tests : ∀ comparison ∈ query.filter.comparisons, comparison.test.Writable
  order : ∀ keys, query.order? = some keys → keys ≠ [] ∧ ∀ key ∈ keys, IsIdentifier key.field
  token : ∀ token, query.token? = some token → QuoteMark.Quotable token

variable {query : Query}

theorem inNormalForm_iff :
    query.InNormalForm ↔ query.Writable ∧ (query.filter = .matchAll ∨ query.filter.Normal) := by
  constructor
  · rintro ⟨shape, paths, tests, order, token⟩
    refine ⟨⟨fun comparison member => ⟨?_, tests comparison member⟩, ?_, token⟩, shape⟩
    · obtain ⟨name, identifier, path⟩ := paths comparison member
      exact ⟨name, wellFormed_identifier_iff.mpr identifier, path⟩
    · intro keys present
      obtain ⟨nonempty, fields⟩ := order keys present
      exact ⟨nonempty, fun key member => wellFormed_identifier_iff.mpr (fields key member)⟩
  · rintro ⟨⟨filter, order, token⟩, shape⟩
    refine ⟨shape, fun comparison member => ?_, fun comparison member => (filter comparison member).2,
      fun keys present => ?_, token⟩
    · obtain ⟨name, wellFormed, path⟩ := (filter comparison member).1
      exact ⟨name, wellFormed_identifier_iff.mp wellFormed, path⟩
    · obtain ⟨nonempty, fields⟩ := order keys present
      exact ⟨nonempty, fun key member => wellFormed_identifier_iff.mp (fields key member)⟩

/-- The tokens of a text for a query, with its limit whatever the sign. -/
def writtenKinds (query : Query) : List TokenKind :=
  query.filter.kinds false ++ query.everyClause

theorem wellFormed_writtenKinds (writable : query.Writable) :
    ∀ kind ∈ query.writtenKinds, kind.WellFormed := by
  have filter := (Filter.spells_render writable.filter false).scans.wellFormed
  have canonical (part : String × List TokenKind) (member : part ∈ query.clauseParts) :
      ∀ kind ∈ part.2, kind.WellFormed := (spells_clause writable member).scans.wellFormed
  have word (part : String × List TokenKind) (member : part ∈ query.wordPart) :
      ∀ kind ∈ part.2, kind.WellFormed := by
    simp only [wordPart, Option.mem_toList, Option.map_eq_some_iff] at member
    obtain ⟨word, _, rfl⟩ := member
    have number : (Scalar.int word).Writable := trivial
    exact List.forall_mem_cons.mpr
      ⟨trivial, List.forall_mem_singleton.mpr (Scalar.wellFormed_kind number)⟩
  refine List.forall_mem_append.mpr ⟨filter, fun kind member => ?_⟩
  rw [everyClause, List.mem_flatten] at member
  obtain ⟨kinds, inKinds, inPart⟩ := member
  obtain ⟨part, inParts, rfl⟩ := List.mem_map.mp inKinds
  simp only [List.mem_append] at inParts
  rcases inParts with (order | limit) | token
  · exact canonical part (by simp [clauseParts, order]) kind inPart
  · exact word part limit kind inPart
  · exact canonical part (by simp [clauseParts, token]) kind inPart

/-- A writable query with a filter as it is built is read from its tokens if the limit has room for
the nodes of the filter. -/
theorem read_written (writable : query.Writable)
    (shape : query.filter = .matchAll ∨ query.filter.Normal) :
    read query.filter.nesting (String.intercalate " " (query.writtenKinds.map TokenKind.spelling)) =
      .ok query := by
  refine read_eq_ok_of_reads (scans_spaced (wellFormed_writtenKinds writable)) ?_
  have root : Reads query.filter.nesting .start (query.filter.kinds false)
      (Ends query.filter.nesting [.order, .limit, .offset] ⟨query.filter, none, none, none⟩) := by
    rcases shape with all | normal
    · rw [all]
      exact .nil ends_start
    · have reads := Filter.reads_root normal.full writable.filter (Nat.le_refl query.filter.nesting)
      rwa [normal.regrouped_eq] at reads
  exact root.append fun place ends =>
    reads_everyClause query (fun keys present => (writable.order keys present).1) ends

theorem hasCondition_eq_false_iff : query.hasCondition = false ↔ query.filter = .matchAll := by
  obtain ⟨filter, _, _, _⟩ := query
  match filter with
  | .node .and [] => simp [hasCondition, Filter.isMatchAll, Filter.matchAll]
  | .leaf _ | .node .or _ | .node .and (_ :: _) =>
    simp [hasCondition, Filter.isMatchAll, Filter.matchAll]

/-- Only a statement without an expression lets everything pass, as a built node has children. -/
theorem hasCondition_of_run {limit : Nat} {text : String} {tokens : List Token} {place : Place}
    {read : Statement} (scanned : Token.scan text.toList = .ok tokens)
    (ran : Place.run limit .start tokens = .ok place) (atEnd : place.statement? = some read)
    (built : ofStatement read = .ok query) :
    query.hasCondition = false ↔ read.expression? = none := by
  have sound := sound_of_run (Token.scans_of_scanFrom scanned) ran atEnd
  have atFilter := (ofStatement_eq_ok_iff.mp built).1
  rw [hasCondition_eq_false_iff]
  cases present : read.expression? with
  | none =>
    simp only [Statement.filter, present] at atFilter
    exact ⟨fun _ => rfl, fun _ => (Except.ok.inj atFilter).symm⟩
  | some node =>
    simp only [Statement.filter, present] at atFilter
    have normal := (sound.expression node present query.filter atFilter).normal
    refine ⟨fun all => ?_, fun missing => ?_⟩
    · rw [all] at normal
      cases normal with
      | node several => exact absurd several (by decide)
    · cases missing

/-- Texts denote exactly the queries in normal form, each of them under some limit. A query has no
condition if and only if its text has no expression. -/
theorem parse_ok_iff_inNormalForm :
    (∀ query : Query, (∃ settings text, parse settings text = .ok query) ↔ query.InNormalForm) ∧
      ∀ (settings : Settings) (text : String) (query : Query), parse settings text = .ok query →
        ∃ tokens, Token.scan text.toList = .ok tokens ∧
          (∃ sentence : Sentence, sentence.kinds = tokens.map Token.kind) ∧
          ∀ sentence : Sentence, sentence.kinds = tokens.map Token.kind →
            (query.hasCondition = false ↔ sentence.phrase? = none) := by
  refine ⟨fun query => ?_, fun settings text query run => ?_⟩
  · rw [inNormalForm_iff]
    constructor
    · rintro ⟨settings, text, run⟩
      obtain ⟨writable, shape⟩ := built_of_read (parse_eq_ok_iff.mp run)
      exact ⟨writable, shape.imp_right fun built => built.normal⟩
    · rintro ⟨writable, shape⟩
      exact ⟨⟨query.filter.nesting, []⟩, _, parse_eq_ok_iff.mpr (read_written writable shape)⟩
  · obtain ⟨tokens, place, read, scanned, ran, atEnd, built⟩ :=
      read_eq_ok_iff.mp (parse_eq_ok_iff.mp run)
    obtain ⟨written, same, _⟩ := Place.follows_of_run ran atEnd
    refine ⟨tokens, scanned, ⟨written, same⟩, fun sentence kinds => ?_⟩
    rw [hasCondition_of_run scanned ran atEnd built]
    have readAs := Place.readAs_of_run kinds ran atEnd
    rw [Sentence.ReadAs] at readAs
    generalize sentence.phrase? = phrase?, read.expression? = expression? at readAs
    cases readAs <;> simp

/-- Empty parts of a path, a part that is spelled like a keyword, a quote in a string and the least
word as a limit can all be written. -/
theorem parse_ok_iff_inNormalForm_unusual :
    let first : Comparison := ⟨["_", "", "AND"], .relate .ne (.int Int64.minValue)⟩
    let second : Comparison := ⟨["b", ""], .isIn [.bool true, .text "it's"]⟩
    let third : Comparison := ⟨["c"], .contains "\""⟩
    let filter : Filter := .node .or [.leaf first, .node .and [.leaf second, .leaf third]]
    ∃ settings text, parse settings text =
      .ok ⟨filter, some [⟨"ASCII", .desc⟩], some Int64.minValue, some ""⟩ := by
  intro first second third filter
  have identifier (c : Char) (rest : List Char) (starts : startsName c = true)
      (continues : rest.all continuesName = true)
      (free : String.ofList (c :: rest) ∉ reservedNames) : IsIdentifier (String.ofList (c :: rest)) :=
    ⟨⟨c, rest, String.toList_ofList, starts, List.all_eq_true.mp continues⟩, free⟩
  have each {property : Comparison → Prop} (atFirst : property first) (atSecond : property second)
      (atThird : property third) : ∀ comparison ∈ filter.comparisons, property comparison :=
    List.forall_mem_cons.mpr ⟨atFirst, List.forall_mem_cons.mpr
      ⟨atSecond, List.forall_mem_singleton.mpr atThird⟩⟩
  refine (parse_ok_iff_inNormalForm.1 _).mpr ⟨Or.inr ?_, each ?_ ?_ ?_, each ?_ ?_ ?_, ?_, ?_⟩
  · have inner : (Filter.node .and [.leaf second, .leaf third]).Normal := by
      refine .node (Nat.le_refl 2) ?_ (by simp)
      exact List.forall_mem_cons.mpr ⟨.leaf second, List.forall_mem_singleton.mpr (.leaf third)⟩
    refine .node (Nat.le_refl 2) ?_ (by simp)
    exact List.forall_mem_cons.mpr ⟨.leaf first, List.forall_mem_singleton.mpr inner⟩
  · exact ⟨"_..AND", identifier '_' ['.', '.', 'A', 'N', 'D'] rfl rfl (by decide), by decide⟩
  · exact ⟨"b.", identifier 'b' ['.'] rfl rfl (by decide), by decide⟩
  · exact ⟨"c", identifier 'c' [] rfl rfl (by decide), by decide⟩
  · trivial
  · refine ⟨List.cons_ne_nil _ _, List.forall_mem_cons.mpr ⟨trivial, ?_⟩⟩
    exact List.forall_mem_singleton.mpr (Or.inl (by decide))
  · exact Or.inr (by decide)
  · rintro _ ⟨⟩
    refine ⟨List.cons_ne_nil _ _, List.forall_mem_singleton.mpr ?_⟩
    exact identifier 'A' ['S', 'C', 'I', 'I'] rfl rfl (by decide)
  · rintro _ ⟨⟩
    exact Or.inl (by decide)

end Query

end RecordQuery
