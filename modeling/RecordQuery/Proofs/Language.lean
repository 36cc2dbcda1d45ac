import Mathlib
import RecordQuery.Proofs.Accepted
import RecordQuery.Proofs.Derivation
import RecordQuery.Proofs.Valuation

namespace RecordQuery

/-- Whether the grammar derives some tokens with at most so many groups open. -/
def Derivable (limit : Nat) (kinds : List TokenKind) : Prop :=
  ∃ sentence : Sentence, sentence.kinds = kinds ∧ sentence.nesting ≤ limit

/-- The reader gets to an end with exactly the tokens that the grammar derives. -/
theorem derivable_iff_run {limit : Nat} {tokens : List Token} :
    Derivable limit (tokens.map Token.kind) ↔
      ∃ place read, Place.run limit .start tokens = .ok place ∧ place.statement? = some read := by
  constructor
  · rintro ⟨sentence, same, within⟩
    obtain ⟨place, ran, read, atEnd, _⟩ := Place.reads_sentence within tokens same.symm
    exact ⟨place, read, ran, atEnd⟩
  · rintro ⟨place, read, ran, atEnd⟩
    obtain ⟨sentence, same, _, within⟩ := Place.follows_of_run ran atEnd
    exact ⟨sentence, same, within⟩

/-- Whether integers and patterns have values. -/
def Valued (numerals : List Numeral) (patterns : List QuotedText) : Prop :=
  (∀ numeral ∈ numerals, numeral.FitsWord) ∧ ∀ pattern ∈ patterns, pattern.IsPattern

theorem valued_append {numerals others : List Numeral} {patterns more : List QuotedText} :
    Valued (numerals ++ others) (patterns ++ more) ↔
      Valued numerals patterns ∧ Valued others more := by
  simp only [Valued, List.forall_mem_append]
  exact and_and_and_comm

section Values

open TokenKind

theorem WrittenLiteral.allHaveValue_cons (literal : WrittenLiteral) (rest : List TokenKind) :
    AllHaveValue false (literal.kind :: rest) ↔
      Valued literal.numerals [] ∧ AllHaveValue false rest := by
  cases literal <;> simp [AllHaveValue, kind, HasValue, isLike, numerals, Valued]

theorem WrittenLiteral.allHaveValue_kindsOfRest (literals : List WrittenLiteral)
    (rest : List TokenKind) :
    AllHaveValue false (Series.kindsOfRest (fun literal => [literal.kind]) literals ++ rest) ↔
      Valued (literals.flatMap numerals) [] ∧ AllHaveValue false rest := by
  induction literals with
  | nil => simp [Series.kindsOfRest, Valued]
  | cons literal literals ih =>
    have step := literal.allHaveValue_cons
      (Series.kindsOfRest (fun literal => [literal.kind]) literals ++ rest)
    rw [ih, ← and_assoc, ← valued_append] at step
    simpa [Series.kindsOfRest, AllHaveValue, HasValue, isLike] using step

theorem WrittenTest.allHaveValue_append (test : WrittenTest) (afterLike : Bool)
    (rest : List TokenKind) :
    AllHaveValue afterLike (test.kinds ++ rest) ↔
      Valued test.numerals test.patterns ∧ AllHaveValue false rest := by
  cases test with
  | relate relation literal =>
    simpa [kinds, AllHaveValue, HasValue, isLike, numerals, patterns] using
      literal.allHaveValue_cons rest
  | like pattern => simp [kinds, AllHaveValue, HasValue, isLike, Valued, numerals, patterns]
  | isIn literals =>
    have first := literals.first.allHaveValue_cons (Series.kindsOfRest (fun literal => [literal.kind])
      literals.rest ++ .punctuation .closeList :: rest)
    rw [WrittenLiteral.allHaveValue_kindsOfRest, ← and_assoc, ← valued_append] at first
    simpa [kinds, Series.kinds, AllHaveValue, HasValue, isLike, numerals, patterns, Series.toList]
      using first
  | contains text => simp [kinds, AllHaveValue, HasValue, isLike, Valued, numerals, patterns]

theorem Phrase.allHaveValue_append (phrase : Phrase) (afterLike : Bool) (rest : List TokenKind) :
    AllHaveValue afterLike (phrase.kinds ++ rest) ↔
      Valued phrase.numerals phrase.patterns ∧ AllHaveValue false rest := by
  induction phrase generalizing afterLike rest with
  | condition name test =>
    simpa [kinds, AllHaveValue, HasValue, isLike, numerals, patterns] using
      test.allHaveValue_append false rest
  | group content ih =>
    have inside := ih false (.punctuation .closeGroup :: rest)
    simpa [kinds, AllHaveValue, HasValue, isLike, numerals, patterns] using inside
  | pair connective left right atLeft atRight =>
    have between : isLike (.keyword connective.keyword) = false := by cases connective <;> rfl
    rw [kinds, List.append_assoc, atLeft, numerals, patterns, valued_append, and_assoc]
    simp [AllHaveValue, HasValue, between, atRight]

theorem WrittenKey.allHaveValue_append (key : WrittenKey) (rest : List TokenKind) :
    AllHaveValue false (key.kinds ++ rest) ↔ AllHaveValue false rest := by
  obtain ⟨field, direction?⟩ := key
  rcases direction? with _ | direction | direction <;>
    simp [kinds, directionKinds, AllHaveValue, HasValue, isLike, Direction.keyword]

theorem Sentence.allHaveValue_orderKinds (order? : Option (Series WrittenKey)) (rest : List TokenKind) :
    AllHaveValue false (orderKinds order? ++ rest) ↔ AllHaveValue false rest := by
  have more (keys : List WrittenKey) :
      AllHaveValue false (Series.kindsOfRest WrittenKey.kinds keys ++ rest) ↔
        AllHaveValue false rest := by
    induction keys with
    | nil => rfl
    | cons key keys ih =>
      simpa [Series.kindsOfRest, AllHaveValue, HasValue, isLike, WrittenKey.allHaveValue_append]
        using ih
  cases order? with
  | none => rfl
  | some keys =>
    simp [orderKinds, AllHaveValue, HasValue, isLike, Series.kinds, WrittenKey.allHaveValue_append,
      more]

/-- The tokens of a derived query have their values if its integers and patterns do. -/
theorem Sentence.allHaveValue_kinds (sentence : Sentence) :
    AllHaveValue false sentence.kinds ↔ Valued sentence.numerals sentence.patterns := by
  have clauses : AllHaveValue false sentence.clauseKinds ↔ Valued sentence.limit?.toList [] := by
    rw [clauseKinds, allHaveValue_orderKinds]
    cases sentence.limit? <;> cases sentence.offset? <;>
      simp [limitKinds, offsetKinds, AllHaveValue, HasValue, isLike, Valued]
  rw [kinds, numerals, patterns]
  cases sentence.phrase? with
  | none => simpa using clauses
  | some phrase =>
    simp only [Option.elim_some]
    rw [phrase.allHaveValue_append, clauses, ← valued_append, List.append_nil]

end Values

namespace Query

/-- A text is accepted if and only if it has tokens, the grammar derives them within the limit, and
their integers and patterns have values. -/
theorem parse_succeeds_iff (settings : Settings) (text : String) :
    (∃ query, parse settings text = .ok query) ↔
      ∃ tokens, Token.scan text.toList = .ok tokens ∧
        ∃ sentence : Sentence, sentence.kinds = tokens.map Token.kind ∧
          sentence.nesting ≤ settings.maxDepth ∧
          (∀ numeral ∈ sentence.numerals, numeral.FitsWord) ∧
          ∀ pattern ∈ sentence.patterns, pattern.IsPattern := by
  have built {tokens : List Token} {place : Place} {read : Statement}
      (ran : Place.run settings.maxDepth .start tokens = .ok place)
      (atEnd : place.statement? = some read) {sentence : Sentence}
      (same : sentence.kinds = tokens.map Token.kind) :
      (∃ query, ofStatement read = .ok query) ↔ Valued sentence.numerals sentence.patterns := by
    have start : Place.start.Owes [] := rfl
    have owed : read.problems = Token.problems false tokens := (start.run ran).statement atEnd
    rw [← Sentence.allHaveValue_kinds, same, ← Token.problems_eq_nil_iff, ← owed,
      ← List.head?_eq_none_iff, ← problem?_ofStatement]
    cases ofStatement read <;> simp [problem?]
  constructor
  · rintro ⟨query, run⟩
    obtain ⟨tokens, place, read, scanned, ran, atEnd, made⟩ := read_eq_ok_iff.mp (parse_eq_ok_iff.mp run)
    obtain ⟨sentence, same, within⟩ := derivable_iff_run.mpr ⟨place, read, ran, atEnd⟩
    exact ⟨tokens, scanned, sentence, same, within, (built ran atEnd same).mp ⟨query, made⟩⟩
  · rintro ⟨tokens, scanned, sentence, same, within, valued⟩
    obtain ⟨place, read, ran, atEnd⟩ := derivable_iff_run.mp ⟨sentence, same, within⟩
    obtain ⟨query, made⟩ := (built ran atEnd same).mpr valued
    exact ⟨query, parse_eq_ok_iff.mpr (read_eq_ok_iff.mpr ⟨tokens, place, read, scanned, ran, atEnd, made⟩)⟩

/-- A text with one pair of parentheses is accepted where one group may be open. -/
theorem parse_succeeds_iff_grouped :
    let text := "(a LIKE 'x%' OR b IN [1, TRUE]) AND c = -5 LIMIT 9"
    ∃ query, parse ⟨1, []⟩ text = .ok query := by
  intro text
  let words : Series WrittenLiteral := ⟨.integer ⟨false, "1"⟩, [.boolean true]⟩
  let group : Phrase :=
    .group (.pair .or (.condition "a" (.like ⟨.single, "x%"⟩)) (.condition "b" (.isIn words)))
  let last : Phrase := .condition "c" (.relate .eq (.integer ⟨true, "5"⟩))
  let sentence : Sentence := ⟨some (.pair .and group last), none, some ⟨false, "9"⟩, none⟩
  obtain ⟨tokens, scanned, same⟩ :
      ∃ tokens, Token.scan text.toList = .ok tokens ∧ sentence.kinds = tokens.map Token.kind :=
    ⟨_, by unfold text; cbv, rfl⟩
  refine (parse_succeeds_iff _ text).mpr ⟨tokens, scanned, sentence, same, ?_, ?_, ?_⟩
  · decide
  · decide
  · intro pattern member
    obtain rfl : pattern = ⟨.single, "x%"⟩ := List.mem_singleton.mp member
    exact ⟨_, by cbv⟩

end Query

end RecordQuery
