import RecordQuery.Toml.Text

/-!
The strings of a document. Whichever quotes a string is written between, the reader gives it back with
all that stands behind it.
-/

namespace RecordQuery.Toml

variable {text : List Char}

/-! ### One character -/

theorem exists_fourHexDigits : ∀ code < 128, ∃ a b c d,
    fourHexDigits code = [a, b, c, d] ∧ codePoint? [a, b, c, d] = some (Char.ofNat code) := by
  have each : ∀ code < 128, (fourHexDigits code).length = 4 ∧
      codePoint? (fourHexDigits code) = some (Char.ofNat code) := by
    decide +kernel
  intro code bound
  obtain ⟨four, read⟩ := each code bound
  match fourHexDigits code, four, read with
  | [a, b, c, d], _, read => exact ⟨a, b, c, d, rfl, read⟩

/-- A character that is not plain is a control character. -/
theorem toNat_lt_of_not_isPlain {c : Char} (control : isPlain c = false) : c.toNat < 128 := by
  simp only [isPlain, Bool.or_eq_false_iff, decide_eq_false_iff_not] at control
  omega

theorem escaped?_of_escapeLetter? {c letter : Char} (written : escapeLetter? c = some letter) :
    escaped? letter = some c := by
  unfold escapeLetter? at written
  split at written <;> cases written <;> rfl

/-- How a character is written between double quotes: behind a backslash by its letter, as it is, or
by its code point. -/
theorem writeChar_cases (c : Char) :
    (∃ letter, escaped? letter = some c ∧ writeChar c = ['\\', letter]) ∨
      (isPlain c = true ∧ c ≠ '"' ∧ c ≠ '\\' ∧ writeChar c = [c]) ∨
        ∃ code, code < 128 ∧ c = Char.ofNat code ∧ writeChar c = '\\' :: 'u' :: fourHexDigits code := by
  cases written : escapeLetter? c with
  | some letter =>
    have escaped := escaped?_of_escapeLetter? written
    exact Or.inl ⟨letter, escaped, by simp only [writeChar, written]⟩
  | none =>
    have other (sign : Char) (lettered : escapeLetter? sign ≠ none) : c ≠ sign := by
      rintro rfl
      exact lettered written
    by_cases plain : isPlain c = true
    · refine Or.inr (Or.inl ⟨plain, other '"' (by decide), other '\\' (by decide), ?_⟩)
      simp only [writeChar, written, plain, if_true]
    · have bound := toNat_lt_of_not_isPlain (Bool.eq_false_iff.mpr plain)
      refine Or.inr (Or.inr ⟨c.toNat, bound, (Char.ofNat_toNat c).symm, ?_⟩)
      simp only [writeChar, written, plain, Bool.false_eq_true, if_false]

/-! ### Between double quotes -/

theorem readBasic_plain {c : Char} (plain : isPlain c = true) (noQuote : c ≠ '"')
    (noBackslash : c ≠ '\\') (rest : List Char) :
    readBasic (c :: rest) = (readBasic rest).map (before c) := by
  rw [readBasic, if_pos plain]
  all_goals simp_all

/-- The letters of escapes are not those that begin a code point. -/
theorem ne_u_of_escaped? {letter c : Char} (known : escaped? letter = some c) :
    letter ≠ 'u' ∧ letter ≠ 'U' := by
  constructor <;> rintro rfl <;> cases known

theorem readBasic_escaped {letter c : Char} (known : escaped? letter = some c) (rest : List Char) :
    readBasic ('\\' :: letter :: rest) = (readBasic rest).map (before c) := by
  have notCode := ne_u_of_escaped? known
  rw [readBasic, known]
  · cases readBasic rest <;> rfl
  · rintro a b d e others rfl
    exact absurd rfl notCode.1
  · rintro a b d e f g h i others rfl
    exact absurd rfl notCode.2

theorem readBasic_code {code : Nat} (bound : code < 128) (rest : List Char) :
    readBasic ('\\' :: 'u' :: (fourHexDigits code ++ rest)) =
      (readBasic rest).map (before (Char.ofNat code)) := by
  obtain ⟨a, b, c, d, digits, read⟩ := exists_fourHexDigits code bound
  rw [digits]
  change readBasic ('\\' :: 'u' :: a :: b :: c :: d :: rest) = _
  rw [readBasic, read]
  cases readBasic rest <;> rfl

/-- A character is read back from what it is written as, whatever follows. -/
theorem readBasic_writeChar (c : Char) (rest : List Char) :
    readBasic (writeChar c ++ rest) = (readBasic rest).map (before c) := by
  rcases writeChar_cases c with ⟨letter, known, written⟩ | ⟨plain, noQuote, noBackslash, written⟩ |
    ⟨code, bound, rfl, written⟩ <;> rw [written]
  · exact readBasic_escaped known rest
  · exact readBasic_plain plain noQuote noBackslash rest
  · exact readBasic_code bound rest

theorem readBasic_flatMap_writeChar (text rest : List Char) :
    readBasic (text.flatMap writeChar ++ '"' :: rest) = some (text, rest) := by
  induction text with
  | nil => rw [List.flatMap_nil, List.nil_append, readBasic]
  | cons c text ih =>
    rw [List.flatMap_cons, List.append_assoc, readBasic_writeChar, ih]
    rfl

theorem exists_writeChar (c : Char) : ∃ d tail, writeChar c = d :: tail ∧ d ≠ '"' := by
  rcases writeChar_cases c with ⟨letter, _, written⟩ | ⟨_, noQuote, _, written⟩ | ⟨code, _, _, written⟩
  · exact ⟨_, _, written, by decide⟩
  · exact ⟨c, [], written, noQuote⟩
  · exact ⟨_, _, written, by decide⟩

/-! ### On several lines -/

theorem readLongBasic_lineBreak (rest : List Char) :
    readLongBasic false ('\n' :: rest) = (readLongBasic false rest).map (before '\n') := by
  rw [readLongBasic]
  rfl

theorem readLongBasic_plain {c : Char} (plain : isPlain c = true) (noQuote : c ≠ '"')
    (noBackslash : c ≠ '\\') (rest : List Char) :
    readLongBasic false (c :: rest) = (readLongBasic false rest).map (before c) := by
  have noBreak : c ≠ '\n' ∧ c ≠ '\r' := by
    constructor <;> rintro rfl <;> cases plain
  rw [readLongBasic]
  · simp only [Bool.false_and, Bool.false_eq_true, if_false, plain, if_true]
  all_goals simp_all

theorem readLongBasic_escaped {letter c : Char} (known : escaped? letter = some c)
    (rest : List Char) :
    readLongBasic false ('\\' :: letter :: rest) = (readLongBasic false rest).map (before c) := by
  have notCode := ne_u_of_escaped? known
  have inLine : endsLine (letter :: rest) = false := by
    unfold escaped? at known
    split at known
    case h_8 => cases known
    all_goals rfl
  rw [readLongBasic, inLine, known]
  · cases readLongBasic false rest <;> rfl
  · rintro a b d e others rfl
    exact absurd rfl notCode.1
  · rintro a b d e f g h i others rfl
    exact absurd rfl notCode.2

theorem readLongBasic_code {code : Nat} (bound : code < 128) (rest : List Char) :
    readLongBasic false ('\\' :: 'u' :: (fourHexDigits code ++ rest)) =
      (readLongBasic false rest).map (before (Char.ofNat code)) := by
  obtain ⟨a, b, c, d, digits, read⟩ := exists_fourHexDigits code bound
  rw [digits]
  change readLongBasic false ('\\' :: 'u' :: a :: b :: c :: d :: rest) = _
  rw [readLongBasic, read]
  cases readLongBasic false rest <;> rfl

theorem readLongBasic_writeLongChar (c : Char) (rest : List Char) :
    readLongBasic false (writeLongChar c ++ rest) = (readLongBasic false rest).map (before c) := by
  unfold writeLongChar
  split
  · rename_i lineBreak
    subst lineBreak
    exact readLongBasic_lineBreak rest
  · rcases writeChar_cases c with ⟨letter, known, written⟩ |
      ⟨plain, noQuote, noBackslash, written⟩ | ⟨code, bound, rfl, written⟩ <;> rw [written]
    · exact readLongBasic_escaped known rest
    · exact readLongBasic_plain plain noQuote noBackslash rest
    · exact readLongBasic_code bound rest

theorem readLongBasic_end {rest : List Char} (stops : ∀ c ∈ rest.head?, c ≠ '"') :
    readLongBasic false ('"' :: '"' :: '"' :: rest) = some ([], rest) := by
  rw [readLongBasic]
  · rintro others rfl
    exact stops '"' rfl rfl
  · rintro others rfl
    exact stops '"' rfl rfl

theorem readLongBasic_flatMap_writeLongChar (text : List Char) {rest : List Char}
    (stops : ∀ c ∈ rest.head?, c ≠ '"') :
    readLongBasic false (text.flatMap writeLongChar ++ '"' :: '"' :: '"' :: rest) =
      some (text, rest) := by
  induction text with
  | nil => exact readLongBasic_end stops
  | cons c text ih =>
    rw [List.flatMap_cons, List.append_assoc, readLongBasic_writeLongChar, ih]
    rfl

/-! ### Between single quotes -/

theorem readLiteral_append {text : List Char} (plain : ∀ c ∈ text, isPlain c = true ∧ c ≠ '\'')
    (rest : List Char) : readLiteral (text ++ '\'' :: rest) = some (text, rest) := by
  induction text with
  | nil => rw [List.nil_append, readLiteral]
  | cons c text ih =>
    obtain ⟨⟨first, noQuote⟩, others⟩ := List.forall_mem_cons.mp plain
    rw [List.cons_append, readLiteral, if_pos first, ih others]
    · rfl
    · exact noQuote

theorem isLiteral_iff :
    isLiteral text = true ↔ ('"' ∈ text ∨ '\\' ∈ text) ∧ ∀ c ∈ text, isPlain c = true ∧ c ≠ '\'' := by
  simp only [isLiteral, Bool.and_eq_true, List.any_eq_true, List.all_eq_true, Bool.or_eq_true,
    beq_iff_eq, bne_iff_ne]
  refine and_congr_left fun _ => ?_
  constructor
  · rintro ⟨c, member, rfl | rfl⟩
    · exact Or.inl member
    · exact Or.inr member
  · rintro (member | member)
    · exact ⟨_, member, Or.inl rfl⟩
    · exact ⟨_, member, Or.inr rfl⟩

/-! ### Any string -/

/-- A string is read back unless a third double quote follows an empty one. -/
theorem readText_writeText (text rest : List Char) (stops : ∀ c ∈ rest.head?, c ≠ '"') :
    readText (writeText text ++ rest) = some (text, rest) := by
  rw [writeText]
  split
  · rename_i literal
    obtain ⟨present, plain⟩ := isLiteral_iff.mp literal
    obtain ⟨c, tail, rfl⟩ : ∃ c tail, text = c :: tail := by
      refine List.exists_cons_of_ne_nil ?_
      rintro rfl
      rcases present with member | member <;> cases member
    have read := readLiteral_append plain rest
    have noQuote : c ≠ '\'' := (plain c List.mem_cons_self).2
    rw [List.cons_append, List.append_assoc, List.singleton_append, readText]
    · exact read
    · rintro others same
      exact noQuote (List.cons.inj same).1
  · split
    · have read := readLongBasic_flatMap_writeLongChar text stops
      simp only [List.cons_append, List.append_assoc, List.nil_append, readText, dropLineBreak]
      exact read
    · -- Otherwise the reader takes the quotes for the opening of a string of several lines.
      have short : ∀ others, text.flatMap writeChar ++ '"' :: rest ≠ '"' :: '"' :: others := by
        intro others long
        cases text with
        | nil =>
          rw [List.flatMap_nil, List.nil_append, List.cons.injEq] at long
          exact stops '"' (long.2 ▸ rfl) rfl
        | cons c text =>
          obtain ⟨d, tail, written, other⟩ := exists_writeChar c
          rw [List.flatMap_cons, written] at long
          exact other (List.cons.inj long).1
      rw [List.cons_append, List.append_assoc, List.singleton_append, readText]
      · exact readBasic_flatMap_writeChar text rest
      · exact short

/-- A string begins with a quote. -/
theorem exists_writeText (text : List Char) :
    ∃ c tail, writeText text = c :: tail ∧ (c = '"' ∨ c = '\'') := by
  rw [writeText]
  split
  · exact ⟨_, _, rfl, Or.inr rfl⟩
  · split
    · exact ⟨_, _, rfl, Or.inl rfl⟩
    · exact ⟨_, _, rfl, Or.inl rfl⟩

end RecordQuery.Toml
