import RecordQuery.Token.Lexer

namespace RecordQuery

/-- A name as the lexer takes it: letters, digits, dots and underscores that begin like one. It
may still be a keyword. -/
def Token.IsWord (name : String) : Prop :=
  ∃ c rest, name.toList = c :: rest ∧ startsName c = true ∧ ∀ d ∈ rest, continuesName d = true

namespace TokenKind

/-- What a token has to be so that its spelling is a token again. -/
def WellFormed : TokenKind → Prop
  | .identifier name => Token.IsWord name ∧ Token.ofName name = .identifier name
  | .integer numeral =>
    numeral.digits.toList ≠ [] ∧ ∀ d ∈ numeral.digits.toList, d.isDigit = true
  | .text literal => literal.mark.char ∉ literal.content.toList
  | _ => True

/-- The characters that would make a token longer. -/
def continuedBy : TokenKind → Char → Bool
  | .identifier _, c => Token.continuesName c
  | .keyword _, c => Token.continuesName c
  | .boolean _, c => Token.continuesName c
  | .integer _, c => c.isDigit
  | .relation .lt, c => c == '='
  | .relation .gt, c => c == '='
  | _, _ => false

/-- Whether a token ends where a text begins. -/
def StopsBefore (kind : TokenKind) (rest : List Char) : Prop :=
  ∀ c ∈ rest.head?, kind.continuedBy c = false

end TokenKind

/-- A run of accepted characters ends where the next one is not accepted. -/
theorem span_append {accepts : Char → Bool} {front rest : List Char}
    (accepted : ∀ c ∈ front, accepts c = true) (stops : ∀ c ∈ rest.head?, accepts c = false) :
    (front ++ rest).takeWhile accepts = front ∧ (front ++ rest).dropWhile accepts = rest := by
  rw [List.takeWhile_append_of_pos accepted, List.dropWhile_append_of_pos accepted]
  cases rest with
  | nil => simp
  | cons c rest => simp [stops c rfl]

/-- The character that ended a run is not accepted. -/
theorem dropWhile_stops (accepts : Char → Bool) (text : List Char) :
    ∀ c ∈ (text.dropWhile accepts).head?, accepts c = false := by
  intro c atHead
  have stopped := List.head?_dropWhile_not accepts text
  rw [Option.mem_def.mp atHead] at stopped
  exact stopped

theorem Text.not_isBlank_of_visible {c : Char} (lower : 33 ≤ c.toNat) (upper : c.toNat ≤ 126) :
    isBlank c = false := by
  simp only [isBlank, blankRanges, List.any_cons, List.any_nil, Bool.or_eq_false_iff,
    Bool.and_eq_false_iff, decide_eq_false_iff_not, and_true]
  omega

namespace Token

theorem startsName_bounds {c : Char} (starts : startsName c = true) :
    65 ≤ c.toNat ∧ c.toNat ≤ 122 := by
  change ((c.isUpper || c.isLower) || c == '_') = true at starts
  rw [Bool.or_eq_true, Bool.or_eq_true, beq_iff_eq] at starts
  rcases starts with (upper | lower) | rfl
  · have bounds : 65 ≤ c.toNat ∧ c.toNat ≤ 90 := of_decide_eq_true upper
    omega
  · obtain ⟨least, greatest⟩ := Bool.and_eq_true_iff.mp lower
    have lower : 97 ≤ c.toNat := of_decide_eq_true least
    have upper : c.toNat ≤ 122 := of_decide_eq_true greatest
    omega
  · decide

theorem isDigit_bounds {c : Char} (digit : c.isDigit = true) : 48 ≤ c.toNat ∧ c.toNat ≤ 57 := by
  simp only [Char.isDigit, Bool.and_eq_true, decide_eq_true_eq, ge_iff_le,
    UInt32.le_iff_toNat_le] at digit
  exact digit

theorem isDigit_of_startsName {c : Char} (starts : startsName c = true) : c.isDigit = false := by
  have letter := startsName_bounds starts
  cases digit : c.isDigit with
  | false => rfl
  | true =>
    have bounds := isDigit_bounds digit
    omega

theorem readKind_of_startsName {c : Char} (starts : startsName c = true) (rest : List Char) :
    readKind c rest = .ok (ofName (String.ofList (c :: rest.takeWhile continuesName)),
      rest.dropWhile continuesName) := by
  unfold readKind
  split
  case h_15 => simp only [isDigit_of_startsName starts, Bool.false_eq_true, if_false, starts, if_true]
  all_goals exact absurd starts (by decide)

theorem readKind_of_isDigit {c : Char} (digit : c.isDigit = true) (rest : List Char) :
    readKind c rest = readInteger false (c :: rest) := by
  unfold readKind
  split
  case h_15 => simp only [digit, if_true]
  all_goals exact absurd digit (by decide)

/-- What a name is, a keyword or an identifier, does not change how it is spelled. -/
theorem spelling_ofName (name : String) : (ofName name).spelling = name := by
  unfold ofName
  split
  · rename_i isTrue
    rw [isTrue]
    rfl
  split
  · rename_i isFalse
    rw [isFalse]
    rfl
  split
  · rename_i word found
    have same := List.find?_some found
    exact eq_of_beq same
  · rfl

theorem continuedBy_ofName (name : String) : (ofName name).continuedBy = continuesName := by
  unfold ofName
  split
  · rfl
  split
  · rfl
  split <;> rfl

theorem wellFormed_ofName {name : String} (word : IsWord name) : (ofName name).WellFormed := by
  cases atName : ofName name with
  | identifier other =>
    have same : other = name := by rw [← spelling_ofName name, atName]; rfl
    subst same
    exact ⟨word, atName⟩
  | integer numeral | text literal =>
    unfold ofName at atName
    split at atName <;> try split at atName <;> try split at atName
    all_goals cases atName
  | boolean | keyword | relation | punctuation => trivial

/-- Keywords and boolean literals are spelled like names and read back as themselves. -/
theorem isWord_keyword (word : Keyword) :
    IsWord word.spelling ∧ ofName word.spelling = .keyword word := by
  cases word <;> exact ⟨⟨_, _, rfl, by decide, List.all_eq_true.mp rfl⟩, by decide⟩

theorem isWord_boolean (value : Bool) :
    IsWord (booleanText value) ∧ ofName (booleanText value) = .boolean value := by
  cases value <;> exact ⟨⟨_, _, rfl, by decide, List.all_eq_true.mp rfl⟩, by decide⟩

variable {kind : TokenKind} {rest : List Char}

theorem readKind_word {name : String} (word : IsWord name) (same : ofName name = kind)
    (stops : kind.StopsBefore rest) :
    ∃ c text, name.toList = c :: text ∧ Text.isBlank c = false ∧
      readKind c (text ++ rest) = .ok (kind, rest) := by
  obtain ⟨c, text, letters, starts, continues⟩ := word
  have bounds := startsName_bounds starts
  have ends : ∀ d ∈ rest.head?, continuesName d = false := by
    intro d atHead
    rw [← continuedBy_ofName name, same]
    exact stops d atHead
  obtain ⟨taken, dropped⟩ := span_append continues ends
  refine ⟨c, text, letters, Text.not_isBlank_of_visible (by omega) (by omega), ?_⟩
  rw [readKind_of_startsName starts, taken, dropped, ← letters, String.ofList_toList, same]

theorem readInteger_digits (negative : Bool) {digits : List Char} (nonempty : digits ≠ [])
    (all : ∀ d ∈ digits, d.isDigit = true) (stops : ∀ d ∈ rest.head?, d.isDigit = false) :
    readInteger negative (digits ++ rest) =
      .ok (.integer ⟨negative, String.ofList digits⟩, rest) := by
  obtain ⟨taken, dropped⟩ := span_append all stops
  unfold readInteger
  rw [taken, dropped]
  cases digits with
  | nil => exact absurd rfl nonempty
  | cons d digits => rfl

theorem readText_content {mark : QuoteMark} {content : List Char} (absent : mark.char ∉ content) :
    readText mark (content ++ mark.char :: rest) =
      .ok (.text ⟨mark, String.ofList content⟩, rest) := by
  have inside : ∀ c ∈ content, (c != mark.char) = true := by
    intro c member
    rw [bne_iff_ne]
    rintro rfl
    exact absent member
  have delimiter : ∀ c ∈ (mark.char :: rest).head?, (c != mark.char) = false := by
    intro c atHead
    rw [← Option.some.inj (Option.mem_def.mp atHead), bne_self_eq_false]
  obtain ⟨taken, dropped⟩ := span_append inside delimiter
  unfold readText
  rw [taken, dropped]

/-- The spelling of a token is read back as that token wherever it ends. -/
theorem readKind_spelling (wellFormed : kind.WellFormed) (stops : kind.StopsBefore rest) :
    ∃ c text, kind.spelling.toList = c :: text ∧ Text.isBlank c = false ∧
      readKind c (text ++ rest) = .ok (kind, rest) := by
  cases kind with
  | identifier name => exact readKind_word wellFormed.1 wellFormed.2 stops
  | keyword word => exact readKind_word (isWord_keyword word).1 (isWord_keyword word).2 stops
  | boolean value => exact readKind_word (isWord_boolean value).1 (isWord_boolean value).2 stops
  | integer numeral =>
    obtain ⟨negative, digits⟩ := numeral
    obtain ⟨nonempty, all⟩ := wellFormed
    have read := readInteger_digits negative nonempty all stops
    rw [String.ofList_toList] at read
    cases negative with
    | true => exact ⟨'-', digits.toList, by simp [TokenKind.spelling, Numeral.spelling], rfl, read⟩
    | false =>
      obtain ⟨d, ds, letters⟩ := List.exists_cons_of_ne_nil nonempty
      have digit := all d (by rw [letters]; exact List.mem_cons_self)
      have bounds := isDigit_bounds digit
      refine ⟨d, ds, letters, Text.not_isBlank_of_visible (by omega) (by omega), ?_⟩
      rw [readKind_of_isDigit digit, ← List.cons_append, ← letters, read]
  | text literal =>
    obtain ⟨mark, content⟩ := literal
    have read : readText mark (content.toList ++ mark.char :: rest) =
        .ok (.text ⟨mark, String.ofList content.toList⟩, rest) := readText_content wellFormed
    rw [String.ofList_toList] at read
    have letters : (TokenKind.text ⟨mark, content⟩).spelling.toList =
        mark.char :: (content.toList ++ [mark.char]) := String.toList_ofList
    refine ⟨mark.char, content.toList ++ [mark.char], letters, ?_, ?_⟩
    · cases mark <;> decide
    · rw [List.append_assoc, List.singleton_append]
      cases mark <;> exact read
  | relation operator =>
    cases operator with
    | eq => exact ⟨'=', [], rfl, by decide, rfl⟩
    | ne => exact ⟨'!', ['='], rfl, by decide, rfl⟩
    | le => exact ⟨'<', ['='], rfl, by decide, rfl⟩
    | ge => exact ⟨'>', ['='], rfl, by decide, rfl⟩
    | lt =>
      refine ⟨'<', [], rfl, by decide, ?_⟩
      cases rest with
      | nil => rfl
      | cons c rest =>
        have other : c ≠ '=' := by rintro rfl; exact absurd (stops '=' rfl) (by decide)
        simp [readKind, other]
    | gt =>
      refine ⟨'>', [], rfl, by decide, ?_⟩
      cases rest with
      | nil => rfl
      | cons c rest =>
        have other : c ≠ '=' := by rintro rfl; exact absurd (stops '=' rfl) (by decide)
        simp [readKind, other]
  | punctuation sign => cases sign <;> exact ⟨_, [], rfl, by decide, rfl⟩

theorem readText_eq_ok {mark : QuoteMark} {text : List Char}
    (read : readText mark text = .ok (kind, rest)) :
    ∃ content, mark.char ∉ content ∧ kind = .text ⟨mark, String.ofList content⟩ ∧
      text = content ++ mark.char :: rest := by
  have whole : text.takeWhile (· != mark.char) ++ text.dropWhile (· != mark.char) = text :=
    List.takeWhile_append_dropWhile
  have delimiter := dropWhile_stops (· != mark.char) text
  unfold readText at read
  split at read
  · cases read
  · rename_i c after dropped
    cases read
    rw [dropped] at whole delimiter
    have same : c = mark.char := by simpa using delimiter c rfl
    refine ⟨text.takeWhile (· != mark.char), ?_, rfl, same ▸ whole.symm⟩
    intro member
    have other := List.all_takeWhile (p := (· != mark.char)) (l := text)
    rw [List.all_eq_true] at other
    simpa using other mark.char member

theorem readInteger_eq_ok {negative : Bool} {text : List Char}
    (read : readInteger negative text = .ok (kind, rest)) :
    ∃ digits, digits ≠ [] ∧ (∀ d ∈ digits, d.isDigit = true) ∧
      kind = .integer ⟨negative, String.ofList digits⟩ ∧ text = digits ++ rest ∧
      ∀ d ∈ rest.head?, d.isDigit = false := by
  unfold readInteger at read
  split at read
  · cases read
  · rename_i nonempty
    cases read
    have all := List.all_takeWhile (p := Char.isDigit) (l := text)
    rw [List.all_eq_true] at all
    exact ⟨text.takeWhile Char.isDigit, nonempty, all, rfl,
      List.takeWhile_append_dropWhile.symm, dropWhile_stops Char.isDigit text⟩

theorem isWord_takeWhile {c : Char} (starts : startsName c = true) (text : List Char) :
    IsWord (String.ofList (c :: text.takeWhile continuesName)) := by
  refine ⟨c, text.takeWhile continuesName, String.toList_ofList, starts, ?_⟩
  have all := List.all_takeWhile (p := continuesName) (l := text)
  rwa [List.all_eq_true] at all

/-- Whatever the lexer reads is a token that ends where the lexer stopped. -/
theorem spelling_of_readKind {c : Char} {text : List Char}
    (read : readKind c text = .ok (kind, rest)) :
    kind.WellFormed ∧ kind.StopsBefore rest ∧ c :: text = kind.spelling.toList ++ rest := by
  unfold readKind at read
  split at read
  case h_9 | h_11 =>
    rename_i other
    cases read
    refine ⟨trivial, ?_, rfl⟩
    intro d atHead
    cases rest with
    | nil => cases atHead
    | cons e rest =>
      obtain rfl := Option.some.inj (Option.mem_def.mp atHead)
      exact beq_eq_false_iff_ne.mpr fun same => other rest (same ▸ rfl)
  case h_12 | h_13 =>
    obtain ⟨content, absent, rfl, rfl⟩ := readText_eq_ok read
    refine ⟨by simpa only [TokenKind.WellFormed, String.toList_ofList] using absent,
      fun d _ => rfl, ?_⟩
    simp [TokenKind.spelling, QuoteMark.enclose, QuoteMark.char]
  case h_14 =>
    obtain ⟨digits, nonempty, all, rfl, rfl, stops⟩ := readInteger_eq_ok read
    refine ⟨by simpa only [TokenKind.WellFormed, String.toList_ofList] using ⟨nonempty, all⟩,
      stops, ?_⟩
    simp [TokenKind.spelling, Numeral.spelling]
  case h_15 =>
    split at read
    · obtain ⟨digits, nonempty, all, rfl, whole, stops⟩ := readInteger_eq_ok read
      refine ⟨by simpa only [TokenKind.WellFormed, String.toList_ofList] using ⟨nonempty, all⟩,
        stops, ?_⟩
      simpa [TokenKind.spelling, Numeral.spelling] using whole
    · split at read
      · rename_i starts
        cases read
        refine ⟨wellFormed_ofName (isWord_takeWhile starts text), ?_, ?_⟩
        · intro d atHead
          rw [continuedBy_ofName]
          exact dropWhile_stops continuesName text d atHead
        · rw [spelling_ofName, String.toList_ofList, List.cons_append,
            List.takeWhile_append_dropWhile]
      · cases read
  all_goals
    cases read
    exact ⟨trivial, fun d _ => rfl, rfl⟩

/-- A text that consists of the spellings of well-formed tokens in their order, with blanks
where they are allowed or needed. -/
inductive Scans : List Char → List TokenKind → Prop
  | done : Scans [] []
  | blank {c rest kinds} : Text.isBlank c = true → Scans rest kinds → Scans (c :: rest) kinds
  | token {kind rest kinds} : kind.WellFormed → kind.StopsBefore rest → Scans rest kinds →
      Scans (kind.spelling.toList ++ rest) (kind :: kinds)

/-- An empty text has no tokens, as no token has an empty spelling. -/
theorem Scans.kinds_eq_nil {text : List Char} {kinds : List TokenKind} (scans : Scans text kinds)
    (empty : text = []) : kinds = [] := by
  cases scans with
  | done => rfl
  | blank => cases empty
  | token wellFormed stops =>
    obtain ⟨c, text, letters, _⟩ := readKind_spelling wellFormed stops
    rw [letters] at empty
    cases empty

theorem Scans.wellFormed {text : List Char} {kinds : List TokenKind} (scans : Scans text kinds) :
    ∀ kind ∈ kinds, kind.WellFormed := by
  induction scans with
  | done => exact fun kind => List.not_mem_nil.elim
  | blank _ _ ih => exact ih
  | token wellFormed _ _ ih => exact List.forall_mem_cons.mpr ⟨wellFormed, ih⟩

theorem scanFrom_nil (column : Nat) : scanFrom column [] = .ok [] := by
  rw [scanFrom]

theorem scanFrom_blank {c : Char} (blank : Text.isBlank c = true) (column : Nat)
    (rest : List Char) : scanFrom column (c :: rest) = scanFrom (column + 1) rest := by
  rw [scanFrom, if_pos blank]

theorem scanFrom_token {c : Char} {text : List Char} (visible : Text.isBlank c = false)
    (read : readKind c text = .ok (kind, rest)) (column : Nat) :
    scanFrom column (c :: text) =
      (scanFrom (column + kind.width) rest).map (⟨kind, column⟩ :: ·) := by
  rw [scanFrom, if_neg (by rw [visible]; decide)]
  split
  · rename_i error failed
    rw [read] at failed
    cases failed
  · rename_i kind' rest' read'
    rw [read] at read'
    cases read'
    rfl

/-- Blanks only move the column. -/
theorem scanFrom_gap {gap : List Char} (blank : ∀ c ∈ gap, Text.isBlank c = true) (column : Nat)
    (text : List Char) :
    scanFrom column (gap ++ text) = scanFrom (column + gap.length) text := by
  induction gap generalizing column with
  | nil => rfl
  | cons c gap ih =>
    rw [List.cons_append, scanFrom_blank (blank c List.mem_cons_self),
      ih fun d member => blank d (List.mem_cons_of_mem c member), List.length_cons,
      Nat.add_right_comm, Nat.add_assoc]

/-- The spelling of a token is scanned as that token. -/
theorem scanFrom_spelling (wellFormed : kind.WellFormed) (stops : kind.StopsBefore rest)
    (column : Nat) : scanFrom column (kind.spelling.toList ++ rest) =
      (scanFrom (column + kind.width) rest).map (⟨kind, column⟩ :: ·) := by
  obtain ⟨c, tail, letters, visible, read⟩ := readKind_spelling wellFormed stops
  rw [letters, List.cons_append, scanFrom_token visible read]

theorem Scans.scanFrom_eq_ok {text : List Char} {kinds : List TokenKind}
    (scans : Scans text kinds) (column : Nat) :
    ∃ tokens, scanFrom column text = .ok tokens ∧ tokens.map Token.kind = kinds := by
  induction scans generalizing column with
  | done => exact ⟨[], scanFrom_nil column, rfl⟩
  | blank blank _ ih =>
    obtain ⟨tokens, run, same⟩ := ih (column + 1)
    exact ⟨tokens, (scanFrom_blank blank column _).trans run, same⟩
  | @token kind rest kinds wellFormed stops _ ih =>
    obtain ⟨tokens, run, same⟩ := ih (column + kind.width)
    refine ⟨⟨kind, column⟩ :: tokens, ?_, by rw [List.map_cons, same]⟩
    rw [scanFrom_spelling wellFormed stops, run]
    rfl

/-- Every text that has tokens consists of their spellings. -/
theorem scans_of_scanFrom {text : List Char} {tokens : List Token} {column : Nat}
    (run : scanFrom column text = .ok tokens) : Scans text (tokens.map Token.kind) := by
  fun_induction scanFrom column text generalizing tokens with
  | case1 => cases run; exact .done
  | case2 column c rest blank ih => exact .blank blank (ih run)
  | case3 column c rest visible error failed => cases run
  | case4 column c text visible kind rest read ih =>
    cases atRest : scanFrom (column + kind.width) rest with
    | error error => rw [atRest] at run; cases run
    | ok others =>
      rw [atRest] at run
      cases run
      obtain ⟨wellFormed, stops, whole⟩ := spelling_of_readKind read
      rw [whole]
      exact .token wellFormed stops (ih atRest)

end Token

end RecordQuery
