import RecordQuery.Proofs.Language

namespace RecordQuery

namespace Place

variable {limit deeper : Nat} {place reached : Place}

/-- A token that can stand somewhere can stand there under any greater limit. -/
theorem next?_mono (more : limit ≤ deeper) {token : Token}
    (next : place.next? limit token = some reached) : place.next? deeper token = some reached := by
  have opened {levels : Levels} {kind : TokenKind} {reached : Place}
      (next : afterOperandStart? limit levels kind = some reached) :
      afterOperandStart? deeper levels kind = some reached := by
    unfold afterOperandStart? at next ⊢
    split at next
    · exact next
    · split at next
      · rename_i room
        simpa only [if_pos (Nat.le_trans room more)] using next
      · cases next
    · cases next
  obtain ⟨kind, column⟩ := token
  cases place with
  | start =>
    rcases Option.or_eq_some_iff.mp next with clause | ⟨noClause, operand⟩
    · exact Option.or_eq_some_iff.mpr (Or.inl clause)
    · exact Option.or_eq_some_iff.mpr (Or.inr ⟨noClause, opened operand⟩)
  | operand levels => exact opened next
  | _ =>
    cases kind with
    | keyword word => cases word <;> exact next
    | punctuation sign => cases sign <;> exact next
    | _ => exact next

theorem run_mono (more : limit ≤ deeper) {tokens : List Token}
    (ran : run limit place tokens = .ok reached) : run deeper place tokens = .ok reached := by
  induction tokens generalizing place with
  | nil => exact ran
  | cons token rest ih =>
    obtain ⟨following, next, ran⟩ := exists_next_of_run ran
    rw [run, next?_mono more next]
    exact ih ran

/-- What has been read is the expression of every derivation of its tokens. -/
theorem readAs_of_run {tokens : List Token} {read : Statement} {sentence : Sentence}
    (same : sentence.kinds = tokens.map Token.kind) (ran : run limit .start tokens = .ok place)
    (atEnd : place.statement? = some read) : sentence.ReadAs read.expression? := by
  have within : sentence.nesting ≤ max limit sentence.nesting := Nat.le_max_right _ _
  obtain ⟨other, again, statement, atOther, readAs⟩ := reads_sentence within tokens same.symm
  rw [run_mono (Nat.le_max_left _ _) ran] at again
  cases again
  rw [atEnd] at atOther
  cases atOther
  exact readAs

end Place

namespace Query

/-- The filter of a query means what the text says when AND binds tighter than OR and conditions
are asked from left to right. Its attributes are the names of the text. -/
theorem filter_keeps_plain_reading (settings : Settings) (text : String) (query : Query)
    (run : parse settings text = .ok query) :
    ∃ tokens, Token.scan text.toList = .ok tokens ∧
      (∃ sentence : Sentence, sentence.kinds = tokens.map Token.kind ∧ sentence.ByPrecedence) ∧
      ∀ sentence : Sentence, sentence.kinds = tokens.map Token.kind →
        ∀ phrase, sentence.phrase? = some phrase → phrase.ByPrecedence →
          (∀ mode record, phrase.evaluate? mode record = some (query.filter.evaluate mode record)) ∧
            query.filter.attributes = phrase.names.eraseDups := by
  obtain ⟨tokens, place, read, scanned, ran, atEnd, built⟩ := read_eq_ok_iff.mp (parse_eq_ok_iff.mp run)
  refine ⟨tokens, scanned, ?_, fun sentence same phrase present byPrecedence => ?_⟩
  · obtain ⟨sentence, same, byPrecedence, _⟩ := Place.follows_of_run ran atEnd
    exact ⟨sentence, same, byPrecedence⟩
  · have readAs := Place.readAs_of_run same ran atEnd
    have atFilter := (ofStatement_eq_ok_iff.mp built).1
    rw [Sentence.ReadAs, present] at readAs
    rw [Statement.filter] at atFilter
    generalize read.expression? = expression? at readAs atFilter
    cases readAs with
    | some means =>
      obtain ⟨verdict, names⟩ := means byPrecedence query.filter atFilter
      exact ⟨verdict, by rw [Filter.attributes, names]⟩

/-- The group goes into the filter as it stands in the text, and the name that comes again is listed
once. -/
theorem filter_keeps_plain_reading_mixed :
    let condition (name digits : String) : Phrase :=
      .condition name (.relate .lt (.integer ⟨false, digits⟩))
    let group : Phrase := .group (.pair .or (condition "c" "3") (condition "a" "4"))
    let phrase : Phrase := .pair .or (condition "a" "1") (.pair .and (condition "b" "2") group)
    ∃ query, parse .builtIn "a < 1 OR b < 2 AND (c < 3 OR a < 4)" = .ok query ∧
      (∀ mode record, phrase.evaluate? mode record = some (query.filter.evaluate mode record)) ∧
      query.filter.attributes = ["a", "b", "c"] := by
  intro condition group phrase
  obtain ⟨query, run⟩ : ∃ query, parse .builtIn "a < 1 OR b < 2 AND (c < 3 OR a < 4)" = .ok query :=
    ⟨_, by cbv⟩
  obtain ⟨tokens, scanned, _, means⟩ := filter_keeps_plain_reading .builtIn _ query run
  let sentence : Sentence := ⟨some phrase, none, none, none⟩
  have same : sentence.kinds = tokens.map Token.kind := by
    have known : ∃ others, Token.scan "a < 1 OR b < 2 AND (c < 3 OR a < 4)".toList = .ok others ∧
        sentence.kinds = others.map Token.kind := ⟨_, by cbv, rfl⟩
    obtain ⟨others, again, kinds⟩ := known
    rw [Except.ok.inj (scanned.symm.trans again), kinds]
  have byPrecedence : phrase.ByPrecedence := by
    simp [phrase, group, condition, Phrase.ByPrecedence, Phrase.isDisjunction]
  obtain ⟨verdict, attributes⟩ := means sentence same phrase rfl byPrecedence
  exact ⟨query, run, verdict, attributes.trans (by decide)⟩

end Query

end RecordQuery
