import RecordQuery.Proofs.Spelling

namespace RecordQuery.Token

/-- Tokens are read from a text one after another, as long as each of them can be, until a rest is
left. -/
inductive ReadsUpTo : List Char → List TokenKind → List Char → Prop
  | start (rest : List Char) : ReadsUpTo rest [] rest
  | blank {c text kinds rest} : Text.isBlank c = true → ReadsUpTo text kinds rest →
      ReadsUpTo (c :: text) kinds rest
  | token {kind text kinds rest} : kind.WellFormed → kind.StopsBefore text →
      ReadsUpTo text kinds rest → ReadsUpTo (kind.spelling.toList ++ text) (kind :: kinds) rest

/-- Whether some text begins with a token. -/
def BeginsToken (text : List Char) : Prop :=
  ∃ kind : TokenKind, kind.WellFormed ∧ kind.spelling.toList <+: text

/-- Whether reading a text stops at a column. The tokens before it are those that the text before it
has by itself, no token begins there, and reading the text never gets past it. -/
def StopsAt (text : List Char) (column : Nat) : Prop :=
  ∃ before c after tokens, text = before ++ c :: after ∧ column = before.length + 1 ∧
    scan before = .ok tokens ∧ ReadsUpTo text (tokens.map kind) (c :: after) ∧
    Text.isBlank c = false ∧ ¬BeginsToken (c :: after) ∧
    ∀ kinds rest, ReadsUpTo text kinds rest → c :: after <:+ rest

variable {c : Char} {text after rest : List Char} {kind : TokenKind} {kinds : List TokenKind}

theorem readKind_of_isWord {name : String} (word : IsWord name)
    (same : name.toList ++ rest = c :: after) : ∃ read, readKind c after = .ok read := by
  obtain ⟨first, letters, spelled, starts, _⟩ := word
  rw [spelled, List.cons_append] at same
  obtain ⟨rfl, _⟩ := List.cons.inj same
  exact ⟨_, readKind_of_startsName starts after⟩

theorem readInteger_of_digit {negative : Bool} {d : Char} {digits : List Char}
    (digit : d.isDigit = true) : ∃ read, readInteger negative (d :: digits) = .ok read := by
  unfold readInteger
  rw [List.takeWhile_cons_of_pos digit]
  exact ⟨_, rfl⟩

/-- Where a token begins the lexer reads one, if only a longer one. -/
theorem readKind_of_beginsToken (begins : BeginsToken (c :: after)) :
    ∃ read, readKind c after = .ok read := by
  obtain ⟨kind, wellFormed, rest, same⟩ := begins
  by_cases stops : kind.StopsBefore rest
  · obtain ⟨d, letters, spelled, _, read⟩ := readKind_spelling wellFormed stops
    rw [spelled, List.cons_append] at same
    obtain ⟨rfl, rfl⟩ := List.cons.inj same
    exact ⟨_, read⟩
  · obtain ⟨d, tail, rfl, continued⟩ : ∃ d tail, rest = d :: tail ∧ kind.continuedBy d = true := by
      cases rest with
      | nil => exact absurd (fun d atHead => nomatch atHead) stops
      | cons d tail => exact ⟨d, tail, rfl, by simpa [TokenKind.StopsBefore] using stops⟩
    cases kind with
    | identifier name => exact readKind_of_isWord wellFormed.1 same
    | keyword word => exact readKind_of_isWord (isWord_keyword word).1 same
    | boolean value => exact readKind_of_isWord (isWord_boolean value).1 same
    | integer numeral =>
      obtain ⟨negative, digits⟩ := numeral
      obtain ⟨nonempty, all⟩ := wellFormed
      obtain ⟨e, others, letters⟩ := List.exists_cons_of_ne_nil nonempty
      have digit := all e (by rw [letters]; exact List.mem_cons_self)
      cases negative with
      | true =>
        simp only [TokenKind.spelling, Numeral.spelling, if_true, String.toList_append, letters] at same
        obtain ⟨rfl, rfl⟩ := List.cons.inj same
        exact readInteger_of_digit digit
      | false =>
        simp only [TokenKind.spelling, Numeral.spelling, Bool.false_eq_true, if_false, letters] at same
        obtain ⟨rfl, rfl⟩ := List.cons.inj same
        rw [readKind_of_isDigit digit]
        exact readInteger_of_digit digit
    | text | punctuation => cases continued
    | relation operator =>
      cases operator with
      | lt | gt =>
        obtain rfl : d = '=' := eq_of_beq continued
        cases same
        exact ⟨_, rfl⟩
      | _ => cases continued

theorem ReadsUpTo.suffix (reads : ReadsUpTo text kinds rest) : rest <:+ text := by
  induction reads with
  | start rest => exact List.suffix_rfl
  | blank _ _ ih => exact ih.trans (List.suffix_cons _ _)
  | token _ _ _ ih => exact ih.trans (List.suffix_append _ _)

/-- The text before the rest has the tokens that have been read by itself. -/
theorem ReadsUpTo.exists_scans (reads : ReadsUpTo text kinds rest) :
    ∃ before, text = before ++ rest ∧ Scans before kinds := by
  induction reads with
  | start rest => exact ⟨[], rfl, .done⟩
  | @blank c text kinds rest blank _ ih =>
    obtain ⟨before, rfl, scans⟩ := ih
    exact ⟨c :: before, rfl, .blank blank scans⟩
  | @token kind text kinds rest wellFormed stops _ ih =>
    obtain ⟨before, rfl, scans⟩ := ih
    refine ⟨kind.spelling.toList ++ before, (List.append_assoc _ _ _).symm, .token wellFormed ?_ scans⟩
    -- what stands behind the token is either the same as in the whole text or nothing
    intro d atHead
    cases before with
    | nil => cases atHead
    | cons e before => exact stops d atHead

theorem not_isBlank_of_spelling {d : Char} (wellFormed : kind.WellFormed)
    (same : kind.spelling.toList ++ rest = d :: text) : Text.isBlank d = false := by
  have alone : kind.StopsBefore [] := fun _ => nofun
  obtain ⟨e, letters, spelled, visible, _⟩ := readKind_spelling wellFormed alone
  rw [spelled, List.cons_append] at same
  rwa [← (List.cons.inj same).1]

/-- A text begins with one token only that nothing behind it makes longer. -/
theorem token_unique {other : TokenKind} {others : List Char} (wellFormed : kind.WellFormed)
    (stops : kind.StopsBefore rest) (otherFormed : other.WellFormed) (otherStops : other.StopsBefore others)
    (same : kind.spelling.toList ++ rest = other.spelling.toList ++ others) :
    kind = other ∧ rest = others := by
  obtain ⟨d, letters, spelled, _, read⟩ := readKind_spelling wellFormed stops
  obtain ⟨e, more, otherSpelled, _, otherRead⟩ := readKind_spelling otherFormed otherStops
  rw [spelled, otherSpelled, List.cons_append, List.cons_append] at same
  obtain ⟨rfl, whole⟩ := List.cons.inj same
  rw [whole, otherRead] at read
  obtain ⟨rfl, rfl⟩ := Prod.mk.inj (Except.ok.inj read)
  exact ⟨rfl, rfl⟩

/-- Reading never gets past a place where no token begins. -/
theorem ReadsUpTo.suffix_of_stop {others : List TokenKind} {other : List Char}
    (stopped : ReadsUpTo text kinds (c :: after)) (visible : Text.isBlank c = false)
    (nothing : ¬BeginsToken (c :: after)) (reads : ReadsUpTo text others other) :
    c :: after <:+ other := by
  induction reads generalizing kinds with
  | start rest => exact stopped.suffix
  | @blank d text others other blank _ ih =>
    generalize whole : d :: text = input at stopped
    cases stopped with
    | start =>
      obtain ⟨rfl, _⟩ := List.cons.inj whole
      rw [blank] at visible
      cases visible
    | blank _ later =>
      obtain ⟨_, rfl⟩ := List.cons.inj whole
      exact ih later
    | token wellFormed =>
      rw [not_isBlank_of_spelling wellFormed whole.symm] at blank
      cases blank
  | @token kind text others other wellFormed stops _ ih =>
    generalize whole : kind.spelling.toList ++ text = input at stopped
    cases stopped with
    | start => exact absurd ⟨kind, wellFormed, text, whole⟩ nothing
    | blank blank =>
      rw [not_isBlank_of_spelling wellFormed whole] at blank
      cases blank
    | token nextFormed nextStops later =>
      obtain ⟨rfl, rfl⟩ := token_unique wellFormed stops nextFormed nextStops whole
      exact ih later

/-- A text without tokens has been read up to a place where no token begins. -/
theorem readsUpTo_of_scanFrom {column stop : Nat} {error : LexicalError}
    (run : scanFrom column text = .error (stop, error)) :
    ∃ before c after kinds, text = before ++ c :: after ∧ stop = column + before.length ∧
      ReadsUpTo text kinds (c :: after) ∧ Text.isBlank c = false ∧ ¬BeginsToken (c :: after) := by
  fun_induction scanFrom column text with
  | case1 => cases run
  | case2 column c rest blank ih =>
    obtain ⟨before, d, after, kinds, rfl, rfl, reads, visible, nothing⟩ := ih run
    refine ⟨c :: before, d, after, kinds, rfl, ?_, .blank blank reads, visible, nothing⟩
    rw [List.length_cons]
    omega
  | case3 column c rest visible error failed =>
    cases run
    refine ⟨[], c, rest, [], rfl, rfl, .start _, Bool.eq_false_iff.mpr visible, fun begins => ?_⟩
    obtain ⟨read, succeeded⟩ := readKind_of_beginsToken begins
    rw [failed] at succeeded
    cases succeeded
  | case4 column c text visible kind rest read ih =>
    cases atRest : scanFrom (column + kind.width) rest with
    | ok others => rw [atRest] at run; cases run
    | error fault =>
      rw [atRest] at run
      cases run
      obtain ⟨wellFormed, stops, whole⟩ := spelling_of_readKind read
      obtain ⟨before, d, after, kinds, rfl, rfl, reads, unseen, nothing⟩ := ih atRest
      refine ⟨kind.spelling.toList ++ before, d, after, kind :: kinds, ?_, ?_, ?_, unseen, nothing⟩
      · rw [whole, List.append_assoc]
      · rw [List.length_append, TokenKind.width, String.length_toList]
        omega
      · rw [whole]
        exact .token wellFormed stops reads

/-- The column of a lexical error is where reading stops. -/
theorem stopsAt_of_scan {column : Nat} {error : LexicalError}
    (run : scan text = .error (column, error)) : StopsAt text column := by
  obtain ⟨before, c, after, kinds, whole, atColumn, reads, visible, nothing⟩ := readsUpTo_of_scanFrom run
  obtain ⟨front, cut, scans⟩ := reads.exists_scans
  obtain rfl : front = before := List.append_cancel_right (cut.symm.trans whole)
  obtain ⟨tokens, scanned, rfl⟩ := scans.scanFrom_eq_ok 1
  refine ⟨front, c, after, tokens, whole, by omega, scanned, reads, visible, nothing, ?_⟩
  exact fun kinds rest others => reads.suffix_of_stop visible nothing others

end RecordQuery.Token
