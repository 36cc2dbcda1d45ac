import RecordQuery.Proofs.Grammar
import RecordQuery.Statement.Reader

namespace RecordQuery

namespace Phrase

def isPair : Phrase → Bool
  | .pair .. => true
  | _ => false

/-- An expression with an operand in front of it. Before a disjunction AND takes the first
alternative only. -/
def prepend (connective : Connective) (operand : Phrase) : Phrase → Phrase
  | .pair .or left right =>
    match connective with
    | .and => .pair .or (prepend .and operand left) right
    | .or => .pair .or operand (.pair .or left right)
  | phrase => .pair connective operand phrase

variable {connective : Connective} {operand : Phrase}

theorem kinds_prepend (phrase : Phrase) :
    (prepend connective operand phrase).kinds =
      operand.kinds ++ .keyword connective.keyword :: phrase.kinds := by
  induction phrase generalizing connective with
  | condition | group => rfl
  | pair inner left right ih =>
    cases inner with
    | and => rfl
    | or =>
      cases connective with
      | and => simp only [prepend, kinds, ih, List.append_assoc, List.cons_append]
      | or => rfl

theorem nesting_prepend (phrase : Phrase) :
    (prepend connective operand phrase).nesting = max operand.nesting phrase.nesting := by
  induction phrase generalizing connective with
  | condition | group => rfl
  | pair inner left right ih =>
    cases inner with
    | and => rfl
    | or =>
      cases connective with
      | and => simp only [prepend, nesting, ih, Nat.max_assoc]
      | or => rfl

theorem byPrecedence_prepend {phrase : Phrase} (single : operand.isPair = false)
    (atOperand : operand.ByPrecedence) (atPhrase : phrase.ByPrecedence) :
    (prepend connective operand phrase).ByPrecedence := by
  have noDisjunction : operand.isDisjunction = false := by
    cases operand with
    | condition | group => rfl
    | pair => cases single
  induction phrase generalizing connective with
  | condition | group => exact ⟨fun _ => ⟨noDisjunction, rfl⟩, atOperand, atPhrase⟩
  | pair inner left right ih =>
    cases inner with
    | and => exact ⟨fun _ => ⟨noDisjunction, rfl⟩, atOperand, atPhrase⟩
    | or =>
      cases connective with
      | and => exact ⟨nofun, ih atPhrase.2.1, atPhrase.2.2⟩
      | or => exact ⟨nofun, atOperand, atPhrase⟩

/-- Whether an expression can stand where so many groups are open. Only its own groups have to
find room. -/
structure Fits (limit depth : Nat) (phrase : Phrase) : Prop where
  byPrecedence : phrase.ByPrecedence
  within : phrase.nesting = 0 ∨ depth + phrase.nesting ≤ limit

end Phrase

/-- The tokens that can follow an operand inside so many groups, up to the end of the text. -/
inductive Continues (limit : Nat) : Nat → List TokenKind → Prop
  | clauses (sentence : Sentence) : Continues limit 0 sentence.clauseKinds
  | close {depth rest} : Continues limit depth rest →
      Continues limit (depth + 1) (.punctuation .closeGroup :: rest)
  | operand {depth rest} {operand : Phrase} (connective : Connective) : operand.isPair = false →
      operand.Fits limit depth → Continues limit depth rest →
      Continues limit depth (.keyword connective.keyword :: (operand.kinds ++ rest))

variable {limit depth : Nat} {kind : TokenKind} {kinds rest : List TokenKind}

/-- The tokens that can follow a whole expression inside so many groups. -/
def Closes (limit : Nat) : Nat → List TokenKind → Prop
  | 0, kinds => ∃ sentence : Sentence, kinds = sentence.clauseKinds
  | depth + 1, kinds => ∃ rest, kinds = .punctuation .closeGroup :: rest ∧ Continues limit depth rest

/-- An operand and what follows it are an expression and what follows that. -/
theorem Continues.exists_phrase (continues : Continues limit depth rest) {operand : Phrase}
    (single : operand.isPair = false) (fits : operand.Fits limit depth) :
    ∃ (phrase : Phrase) (after : List TokenKind), operand.kinds ++ rest = phrase.kinds ++ after ∧ phrase.Fits limit depth ∧
      Closes limit depth after := by
  induction continues generalizing operand with
  | clauses sentence => exact ⟨operand, _, rfl, fits, sentence, rfl⟩
  | close continues => exact ⟨operand, _, rfl, fits, _, rfl, continues⟩
  | @operand depth next rest connective nextSingle nextFits continues ih =>
    obtain ⟨phrase, after, same, phraseFits, closes⟩ := ih nextSingle nextFits
    refine ⟨.prepend connective operand phrase, after, ?_, ⟨?_, ?_⟩, closes⟩
    · rw [same, Phrase.kinds_prepend, List.append_assoc, List.cons_append]
    · exact Phrase.byPrecedence_prepend single fits.byPrecedence phraseFits.byPrecedence
    · have atOperand := fits.within
      have atPhrase := phraseFits.within
      rw [Phrase.nesting_prepend]
      omega

theorem Token.exists_written {token : Token} {literal : Literal}
    (isLiteral : token.literal? = some literal) : ∃ written : WrittenLiteral, token.kind = written.kind := by
  unfold literal? at isLiteral
  split at isLiteral
  · rename_i value atKind
    exact ⟨.boolean value, atKind⟩
  · rename_i numeral atKind
    exact ⟨.integer numeral, atKind⟩
  · rename_i text atKind
    exact ⟨.text text, atKind⟩
  · cases isLiteral

namespace Place

variable {place reached : Place} {levels : Levels} {read : Statement} {keys : List SortKey}

/-- The clauses that can follow the sort keys. -/
def Pages (kinds : List TokenKind) : Prop :=
  ∃ limit? offset?, kinds = Sentence.limitKinds limit? ++ Sentence.offsetKinds offset?

/-- The tokens that can follow at a place up to the end of the text. -/
def Follows (limit : Nat) (kinds : List TokenKind) : Place → Prop
  | .start => ∃ sentence : Sentence, sentence.kinds = kinds ∧ sentence.ByPrecedence ∧
      sentence.nesting ≤ limit
  | .operand levels => ∃ operand rest, kinds = Phrase.kinds operand ++ rest ∧
      operand.isPair = false ∧ operand.Fits limit levels.depth ∧ Continues limit levels.depth rest
  | .operator levels _ => ∃ test rest, kinds = WrittenTest.kinds test ++ rest ∧
      Continues limit levels.depth rest
  | .related levels _ _ => ∃ literal rest, kinds = WrittenLiteral.kind literal :: rest ∧
      Continues limit levels.depth rest
  | .pattern levels _ => ∃ text rest, kinds = .text text :: rest ∧ Continues limit levels.depth rest
  | .element levels _ => ∃ text rest, kinds = .text text :: rest ∧ Continues limit levels.depth rest
  | .listStart levels _ => ∃ literals : Series WrittenLiteral, ∃ rest,
      kinds = .punctuation .openList :: (literals.kinds (fun literal => [literal.kind]) ++
        .punctuation .closeList :: rest) ∧ Continues limit levels.depth rest
  | .listItem levels _ _ => ∃ literals : Series WrittenLiteral, ∃ rest,
      kinds = literals.kinds (fun literal => [literal.kind]) ++ .punctuation .closeList :: rest ∧
        Continues limit levels.depth rest
  | .listNext levels _ _ => ∃ (literals : List WrittenLiteral) (rest : List TokenKind),
      kinds = Series.kindsOfRest (fun literal => [literal.kind]) literals ++
        .punctuation .closeList :: rest ∧ Continues limit levels.depth rest
  | .operandEnd levels => Continues limit levels.depth kinds
  | .sortedBy _ => ∃ keys : Series WrittenKey, ∃ pages,
      kinds = .keyword .sortedBy :: (keys.kinds WrittenKey.kinds ++ pages) ∧ Pages pages
  | .sortField _ _ => ∃ keys : Series WrittenKey, ∃ pages,
      kinds = keys.kinds WrittenKey.kinds ++ pages ∧ Pages pages
  | .sortDirection _ _ _ => ∃ direction? keys pages,
      kinds = WrittenKey.directionKinds direction? ++ (Series.kindsOfRest WrittenKey.kinds keys ++ pages) ∧
        Pages pages
  | .sortKeyEnd _ _ => ∃ keys pages, kinds = Series.kindsOfRest WrittenKey.kinds keys ++ pages ∧
      Pages pages
  | .limit _ => ∃ numeral offset?, kinds = .integer numeral :: Sentence.offsetKinds offset?
  | .limitEnd _ => ∃ offset?, kinds = Sentence.offsetKinds offset?
  | .offset _ => ∃ text, kinds = [.text text]
  | .offsetEnd _ => kinds = []

theorem pages_of_clauseAfterOrder? (next : clauseAfterOrder? read kind = some reached)
    (follows : reached.Follows limit kinds) : Pages (kind :: kinds) := by
  unfold clauseAfterOrder? at next
  split at next
  · cases next
    obtain ⟨numeral, offset?, rfl⟩ := follows
    exact ⟨some numeral, offset?, rfl⟩
  · cases next
    obtain ⟨text, rfl⟩ := follows
    exact ⟨none, some text, rfl⟩
  · cases next

theorem clauses_of_clause? (next : clause? read kind = some reached)
    (follows : reached.Follows limit kinds) :
    ∃ sentence : Sentence, kind :: kinds = sentence.clauseKinds := by
  unfold clause? at next
  split at next
  · cases next
    obtain ⟨keys, _, rfl, limit?, offset?, rfl⟩ := follows
    exact ⟨⟨none, some keys, limit?, offset?⟩, rfl⟩
  · cases next
    obtain ⟨numeral, offset?, rfl⟩ := follows
    exact ⟨⟨none, none, some numeral, offset?⟩, rfl⟩
  · cases next
    obtain ⟨text, rfl⟩ := follows
    exact ⟨⟨none, none, none, some text⟩, rfl⟩
  · cases next

theorem follows_of_afterOperandStart? (next : afterOperandStart? limit levels kind = some reached)
    (follows : reached.Follows limit kinds) : (operand levels).Follows limit (kind :: kinds) := by
  unfold afterOperandStart? at next
  split at next
  · rename_i name
    cases next
    obtain ⟨test, rest, rfl, continues⟩ := follows
    exact ⟨.condition name test, rest, rfl, rfl, ⟨trivial, Or.inl rfl⟩, continues⟩
  · split at next
    · rename_i room
      cases next
      obtain ⟨operand, rest, rfl, single, fits, continues⟩ := follows
      obtain ⟨content, _, same, contentFits, rest, rfl, behind⟩ := continues.exists_phrase single fits
      refine ⟨.group content, rest, ?_, rfl, ⟨contentFits.byPrecedence, Or.inr ?_⟩, behind⟩
      · rw [same, Phrase.kinds, List.cons_append, List.append_assoc, List.singleton_append]
      · have within := contentFits.within
        simp only [Levels.depth, Levels.enter, List.length_cons, Phrase.nesting] at within ⊢
        simp only [Levels.depth] at room
        omega
    · cases next
  · cases next

theorem follows_of_afterOperator? {name : String}
    (next : afterOperator? levels name kind = some reached)
    (follows : reached.Follows limit kinds) :
    (operator levels name).Follows limit (kind :: kinds) := by
  unfold afterOperator? at next
  split at next
  · rename_i relation
    cases next
    obtain ⟨literal, rest, rfl, continues⟩ := follows
    exact ⟨.relate relation literal, rest, rfl, continues⟩
  · cases next
    obtain ⟨text, rest, rfl, continues⟩ := follows
    exact ⟨.like text, rest, rfl, continues⟩
  · cases next
    obtain ⟨text, rest, rfl, continues⟩ := follows
    exact ⟨.contains text, rest, rfl, continues⟩
  · cases next
    obtain ⟨literals, rest, rfl, continues⟩ := follows
    refine ⟨.isIn literals, rest, ?_, continues⟩
    rw [WrittenTest.kinds, List.cons_append, List.cons_append, List.append_assoc,
      List.singleton_append]
  · cases next

theorem follows_of_afterOperandEnd? (next : afterOperandEnd? levels kind = some reached)
    (follows : reached.Follows limit kinds) : Continues limit levels.depth (kind :: kinds) := by
  unfold afterOperandEnd? at next
  split at next
  · cases next
    obtain ⟨operand, rest, rfl, single, fits, continues⟩ := follows
    exact .operand .and single fits continues
  · cases next
    obtain ⟨operand, rest, rfl, single, fits, continues⟩ := follows
    exact .operand .or single fits continues
  · obtain ⟨left, atLeft, rfl⟩ := Option.map_eq_some_iff.mp next
    unfold Levels.leave? at atLeft
    split at atLeft
    · cases atLeft
    · rename_i level outer atOuter
      cases atLeft
      have around : levels.depth = outer.length + 1 := by
        rw [Levels.depth, atOuter, List.length_cons]
      rw [around]
      exact .close follows
  · split at next
    · rename_i outermost
      obtain ⟨sentence, same⟩ := clauses_of_clause? next follows
      rw [outermost, same]
      exact .clauses sentence
    · cases next

theorem follows_of_afterSortKey? (next : afterSortKey? read keys kind = some reached)
    (follows : reached.Follows limit kinds) :
    ∃ more pages, kind :: kinds = Series.kindsOfRest WrittenKey.kinds more ++ pages ∧
      Pages pages := by
  unfold afterSortKey? at next
  split at next
  · cases next
    obtain ⟨⟨first, rest⟩, pages, rfl, areClauses⟩ := follows
    refine ⟨first :: rest, pages, ?_, areClauses⟩
    simp only [Series.kinds, Series.kindsOfRest, List.flatMap_cons, List.cons_append]
  · exact ⟨[], _, rfl, pages_of_clauseAfterOrder? next follows⟩

theorem follows_of_afterSortField? {field : String}
    (next : afterSortField? read keys field kind = some reached)
    (follows : reached.Follows limit kinds) :
    (sortDirection read keys field).Follows limit (kind :: kinds) := by
  unfold afterSortField? at next
  split at next
  · cases next
    obtain ⟨more, pages, rfl, areClauses⟩ := follows
    exact ⟨some .asc, more, pages, rfl, areClauses⟩
  · cases next
    obtain ⟨more, pages, rfl, areClauses⟩ := follows
    exact ⟨some .desc, more, pages, rfl, areClauses⟩
  · obtain ⟨more, pages, same, areClauses⟩ := follows_of_afterSortKey? next follows
    exact ⟨none, more, pages, same, areClauses⟩

theorem follows_start_of_operand (follows : (operand .empty).Follows limit kinds) :
    Place.start.Follows limit kinds := by
  obtain ⟨operand, rest, rfl, single, fits, continues⟩ := follows
  obtain ⟨phrase, _, same, phraseFits, sentence, rfl⟩ := continues.exists_phrase single fits
  refine ⟨{ sentence with phrase? := some phrase }, same.symm, fun other present => ?_, ?_⟩
  · cases present
    exact phraseFits.byPrecedence
  · have within := phraseFits.within
    simp only [Levels.depth, Levels.empty, List.length_nil, Sentence.nesting, Option.elim_some]
      at within ⊢
    omega

/-- A token that can stand at a place extends what can follow behind it to what can follow
there. -/
theorem Follows.of_next {token : Token} (next : place.next? limit token = some reached)
    (follows : reached.Follows limit kinds) : place.Follows limit (token.kind :: kinds) := by
  unfold next? at next
  split at next
  case h_1 =>
    rcases Option.or_eq_some_iff.mp next with clause | ⟨_, operand⟩
    · obtain ⟨sentence, same⟩ := clauses_of_clause? clause follows
      refine ⟨{ sentence with phrase? := none }, same.symm, fun phrase missing => ?_, Nat.zero_le _⟩
      cases missing
    · exact follows_start_of_operand (follows_of_afterOperandStart? operand follows)
  case h_2 => exact follows_of_afterOperandStart? next follows
  case h_3 => exact follows_of_afterOperator? next follows
  case h_4 =>
    obtain ⟨literal, isLiteral, rfl⟩ := Option.map_eq_some_iff.mp next
    obtain ⟨written, atKind⟩ := Token.exists_written isLiteral
    rw [atKind]
    exact ⟨written, kinds, rfl, follows⟩
  case h_5 literal atKind | h_6 literal atKind =>
    cases next
    rw [atKind]
    exact ⟨literal, kinds, rfl, follows⟩
  case h_7 atKind =>
    cases next
    obtain ⟨literals, rest, rfl, continues⟩ := follows
    rw [atKind]
    exact ⟨literals, rest, rfl, continues⟩
  case h_8 =>
    obtain ⟨literal, isLiteral, rfl⟩ := Option.map_eq_some_iff.mp next
    obtain ⟨written, atKind⟩ := Token.exists_written isLiteral
    obtain ⟨more, rest, rfl, continues⟩ := follows
    rw [atKind]
    exact ⟨⟨written, more⟩, rest, rfl, continues⟩
  case h_9 atKind =>
    cases next
    obtain ⟨⟨first, more⟩, rest, rfl, continues⟩ := follows
    rw [atKind]
    exact ⟨first :: more, rest, rfl, continues⟩
  case h_10 atKind =>
    cases next
    rw [atKind]
    exact ⟨[], kinds, rfl, follows⟩
  case h_11 => exact follows_of_afterOperandEnd? next follows
  case h_12 atKind =>
    cases next
    obtain ⟨keys, pages, rfl, areClauses⟩ := follows
    rw [atKind]
    exact ⟨keys, pages, rfl, areClauses⟩
  case h_13 field atKind =>
    cases next
    obtain ⟨direction?, more, pages, rfl, areClauses⟩ := follows
    rw [atKind]
    refine ⟨⟨⟨field, direction?⟩, more⟩, pages, ?_, areClauses⟩
    rw [Series.kinds, WrittenKey.kinds, List.append_assoc, List.cons_append]
  case h_14 => exact follows_of_afterSortField? next follows
  case h_15 => exact follows_of_afterSortKey? next follows
  case h_16 numeral atKind =>
    cases next
    obtain ⟨offset?, rfl⟩ := follows
    rw [atKind]
    exact ⟨numeral, offset?, rfl⟩
  case h_17 atKind =>
    cases next
    obtain ⟨text, rfl⟩ := follows
    rw [atKind]
    exact ⟨some text, rfl⟩
  case h_18 literal atKind =>
    cases next
    obtain rfl : kinds = [] := follows
    rw [atKind]
    exact ⟨literal, rfl⟩
  case h_19 => cases next

/-- Nothing has to follow where a statement can end. -/
theorem follows_nil (atEnd : place.statement? = some read) : place.Follows limit [] := by
  unfold statement? at atEnd
  split at atEnd
  · exact ⟨⟨none, none, none, none⟩, rfl, nofun, Nat.zero_le _⟩
  · split at atEnd
    · rename_i outermost
      show Continues limit _ []
      rw [outermost]
      exact .clauses ⟨none, none, none, none⟩
    · cases atEnd
  · exact ⟨none, [], [], rfl, none, none, rfl⟩
  · exact ⟨[], [], rfl, none, none, rfl⟩
  · exact ⟨none, rfl⟩
  · rfl
  · cases atEnd

/-- The tokens on the way from a place to an end of a statement can follow there. -/
theorem follows_of_run {tokens : List Token} {final : Place}
    (ran : run limit place tokens = .ok final) (atEnd : final.statement? = some read) :
    place.Follows limit (tokens.map Token.kind) := by
  induction tokens generalizing place with
  | nil =>
    cases ran
    exact follows_nil atEnd
  | cons token rest ih =>
    obtain ⟨reached, next, ran⟩ := exists_next_of_run ran
    exact .of_next next (ih ran)

end Place

end RecordQuery
