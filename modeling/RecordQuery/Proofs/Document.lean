import RecordQuery.Proofs.Quotation
import RecordQuery.Proofs.Spelling
import RecordQuery.Settings.File
import RecordQuery.Toml.Document

/-!
A document that was written is read as the members that it was written from, line by line.
-/

namespace RecordQuery.Toml

/-! ### Integers -/

theorem skipBlanks_visible {c : Char} (noSpace : c ≠ ' ') (noTab : c ≠ '\t') (rest : List Char) :
    skipBlanks (c :: rest) = c :: rest :=
  List.dropWhile_cons_of_neg (by simp [isBlank, noSpace, noTab])

/-- A text that begins with digits up to the end of a line. -/
def DigitLine (text : List Char) : Prop :=
  ∃ digits rest, (∀ d ∈ digits, d.isDigit = true) ∧ text = digits ++ '\n' :: rest

namespace DigitLine

variable {text rest : List Char} {c : Char}

theorem exists_cons (line : DigitLine text) :
    ∃ c rest, text = c :: rest ∧ (c.isDigit = true ∨ c = '\n') := by
  obtain ⟨digits, rest, all, rfl⟩ := line
  cases digits with
  | nil => exact ⟨'\n', rest, rfl, .inr rfl⟩
  | cons d digits => exact ⟨d, _, rfl, .inl (all d List.mem_cons_self)⟩

/-- What begins with neither a digit nor a line break is something else. -/
theorem head_ne (line : DigitLine (c :: rest)) {other : Char} (noDigit : other.isDigit = false)
    (noBreak : other ≠ '\n') : c ≠ other := by
  rintro rfl
  obtain ⟨d, tail, same, first⟩ := line.exists_cons
  cases same
  rcases first with digit | rfl
  · rw [noDigit] at digit
    cases digit
  · exact noBreak rfl

theorem tail (line : DigitLine (c :: rest)) (noBreak : c ≠ '\n') : DigitLine rest := by
  obtain ⟨digits, others, all, same⟩ := line
  cases digits with
  | nil =>
    cases same
    exact absurd rfl noBreak
  | cons d digits =>
    cases same
    exact ⟨digits, others, fun e member => all e (List.mem_cons_of_mem _ member), rfl⟩

theorem readSign (line : DigitLine text) (sign : Char) (noDigit : sign.isDigit = false)
    (noBreak : sign ≠ '\n') : readSign sign text = none := by
  obtain ⟨c, rest, rfl, _⟩ := line.exists_cons
  exact if_neg (line.head_ne noDigit noBreak)

/-- Digits of a fixed width do not reach over the end of the line. -/
theorem readFixed {width value : Nat} (line : DigitLine text)
    (read : readFixed width text = some (value, rest)) : DigitLine rest := by
  obtain ⟨digits, others, all, rfl⟩ := line
  simp only [Toml.readFixed] at read
  split at read
  · rename_i fits
    cases read
    have within : width ≤ digits.length := by
      refine Nat.le_of_not_lt fun beyond => ?_
      obtain ⟨more, rfl⟩ := Nat.exists_eq_add_of_lt beyond
      have inside : '\n' ∈ (digits ++ '\n' :: others).take (digits.length + more + 1) := by
        rw [Nat.add_assoc, List.take_length_add_append, List.take_succ_cons]
        exact List.mem_append_right digits List.mem_cons_self
      exact absurd (List.all_eq_true.mp fits.2 '\n' inside) (by decide)
    rw [List.drop_append_of_le_length within]
    exact ⟨digits.drop width, others, fun d member => all d (List.mem_of_mem_drop member), rfl⟩
  · cases read

theorem readBetween {width least greatest value : Nat} (line : DigitLine text)
    (read : readBetween width least greatest text = some (value, rest)) : DigitLine rest := by
  rw [Toml.readBetween] at read
  obtain ⟨⟨found, others⟩, atFixed, read⟩ := Option.bind_eq_some_iff.mp read
  dsimp only at read
  split at read
  · cases read
    exact line.readFixed atFixed
  · cases read

/-- An integer is no date and no time, as no sign follows its digits. -/
theorem readMoment (line : DigitLine text) : readMoment text = none := by
  have date : skipDate text = none := by
    rw [skipDate]
    cases year : Toml.readFixed 4 text with
    | none => rfl
    | some read =>
      have stuck := (line.readFixed year).readSign '-' (by decide) (by decide)
      simp only [bind, Option.bind, stuck]
  have time : skipTime text = none := by
    rw [skipTime]
    cases hour : Toml.readBetween 2 0 23 text with
    | none => rfl
    | some read =>
      have stuck := (line.readBetween hour).readSign ':' (by decide) (by decide)
      simp only [bind, Option.bind, stuck]
  rw [Toml.readMoment, skipMoment, date, time]
  rfl

theorem optionalSign (line : DigitLine text) : optionalSign text = ([], text) := by
  obtain ⟨c, rest, rfl, _⟩ := line.exists_cons
  have noPlus : c ≠ '+' := line.head_ne (by decide) (by decide)
  have noMinus : c ≠ '-' := line.head_ne (by decide) (by decide)
  rw [Toml.optionalSign]
  · exact fun _ same => noPlus (List.cons.inj same).1
  · exact fun _ same => noMinus (List.cons.inj same).1

end DigitLine

theorem moreDigits_append {digits : List Char} (all : ∀ d ∈ digits, d.isDigit = true)
    (rest : List Char) :
    moreDigits Char.isDigit (digits ++ '\n' :: rest) = (digits, '\n' :: rest) := by
  induction digits with
  | nil =>
    rw [List.nil_append, moreDigits, if_neg (by decide)]
    exact fun _ _ same => nomatch same
  | cons d digits ih =>
    have digit := all d List.mem_cons_self
    have other : d ≠ '_' := by
      rintro rfl
      cases digit
    rw [List.cons_append, moreDigits, if_pos digit,
      ih fun e member => all e (List.mem_cons_of_mem d member)]
    · rfl
    · exact fun _ _ same _ => other same

/-- Only the digits of zero begin with a zero. -/
theorem exists_toDigits {value : Nat} (nonzero : value ≠ 0) :
    ∃ d digits, Nat.toDigits 10 value = d :: digits ∧ d ≠ '0' := by
  induction value using Nat.strongRecOn with
  | ind value ih =>
    by_cases small : value < 10
    · refine ⟨_, [], Nat.toDigits_of_lt_base small, ?_⟩
      rwa [Ne, Nat.digitChar_eq_zero]
    · obtain ⟨d, digits, front, other⟩ := ih (value / 10) (by omega) (by omega)
      rw [Nat.toDigits_of_base_le (by decide) (by omega), front]
      exact ⟨d, _, rfl, other⟩

section Numbers

variable (value : Nat) (rest : List Char)

theorem digitLine_toDigits : DigitLine (Nat.toDigits 10 value ++ '\n' :: rest) :=
  ⟨_, rest, fun _ member => Nat.isDigit_of_mem_toDigits (by decide) (by decide) member, rfl⟩

theorem readWhole_toDigits :
    readWhole (Nat.toDigits 10 value ++ '\n' :: rest) =
      some (Nat.toDigits 10 value, '\n' :: rest) := by
  by_cases zero : value = 0
  · subst zero
    rfl
  · obtain ⟨d, digits, same, other⟩ := exists_toDigits zero
    have all : ∀ e ∈ d :: digits, e.isDigit = true := fun e member =>
      Nat.isDigit_of_mem_toDigits (by decide) (by decide) (same ▸ member)
    have first := all d List.mem_cons_self
    rw [same, List.cons_append, readWhole, readDigits, if_pos first,
      moreDigits_append fun e member => all e (List.mem_cons_of_mem d member)]
    · rfl
    · exact fun _ same => other (List.cons.inj same).1

theorem readFraction_toDigits : readFraction (Nat.toDigits 10 value ++ '\n' :: rest) = none := by
  have line := digitLine_toDigits value rest
  have whole := readWhole_toDigits value rest
  obtain ⟨c, others, same, _⟩ := line.exists_cons
  rw [same] at line whole ⊢
  have noInfinity : c ≠ 'i' := line.head_ne (by decide) (by decide)
  have noNan : c ≠ 'n' := line.head_ne (by decide) (by decide)
  rw [readFraction, line.optionalSign]
  simp only
  split
  · rename_i same
    exact absurd (List.cons.inj same).1 noInfinity
  · rename_i same
    exact absurd (List.cons.inj same).1 noNan
  · rw [whole]
    rfl

theorem readInteger_toDigits (bounded : (value : Int) ≤ greatestInteger) :
    readInteger (Nat.toDigits 10 value ++ '\n' :: rest) =
      some (.integer value, '\n' :: rest) := by
  have line := digitLine_toDigits value rest
  have whole := readWhole_toDigits value rest
  have least : leastInteger ≤ (value : Int) := by
    have negative : leastInteger ≤ 0 := by decide
    omega
  have prefixed (mark : Char) (noDigit : mark.isDigit = false) (noBreak : mark ≠ '\n') :
      ∀ others, Nat.toDigits 10 value ++ '\n' :: rest ≠ '0' :: mark :: others := by
    intro others same
    rw [same] at line
    exact (line.tail (by decide)).head_ne noDigit noBreak rfl
  rw [readInteger, line.optionalSign]
  · simp only [whole, bind, Option.bind, List.nil_eq, reduceCtorEq, if_false, Decimal.ofDigits,
      Nat.ofDigitChars_ten_toDigits, boundedInteger]
    rw [if_pos ⟨least, bounded⟩]
    rfl
  · exact prefixed 'x' (by decide) (by decide)
  · exact prefixed 'o' (by decide) (by decide)
  · exact prefixed 'b' (by decide) (by decide)

theorem skipBlanks_toDigits :
    skipBlanks (Nat.toDigits 10 value ++ '\n' :: rest) = Nat.toDigits 10 value ++ '\n' :: rest := by
  have line := digitLine_toDigits value rest
  obtain ⟨c, others, same, _⟩ := line.exists_cons
  rw [same] at line ⊢
  exact skipBlanks_visible (line.head_ne (by decide) (by decide))
    (line.head_ne (by decide) (by decide)) others

/-- The digits of an integer are read as the integer. -/
theorem readSimple_toDigits (bounded : (value : Int) ≤ greatestInteger) :
    readSimple (Nat.toDigits 10 value ++ '\n' :: rest) =
      some (.integer value, '\n' :: rest) := by
  have line := digitLine_toDigits value rest
  have moment := line.readMoment
  have fraction := readFraction_toDigits value rest
  have integer := readInteger_toDigits value rest bounded
  obtain ⟨c, others, same, _⟩ := line.exists_cons
  rw [same] at line moment fraction integer ⊢
  have other (d : Char) (noDigit : d.isDigit = false) (noBreak : d ≠ '\n') : c ≠ d :=
    line.head_ne noDigit noBreak
  have noQuote := not_or.mpr
    ⟨other '"' (by decide) (by decide), other '\'' (by decide) (by decide)⟩
  rw [readSimple, if_neg noQuote]
  split
  · rename_i same
    exact absurd (List.cons.inj same).1 (other 't' (by decide) (by decide))
  · rename_i same
    exact absurd (List.cons.inj same).1 (other 'f' (by decide) (by decide))
  · rw [moment, fraction, integer]
    rfl

theorem readValue_toDigits (bounded : (value : Int) ≤ greatestInteger) :
    readValue nestingLimit (Nat.toDigits 10 value ++ '\n' :: rest) =
      some (.integer value, '\n' :: rest) := by
  have read := readSimple_toDigits value rest bounded
  have line := digitLine_toDigits value rest
  obtain ⟨c, others, same, _⟩ := line.exists_cons
  rw [same] at read line ⊢
  rw [nestingLimit, readValue, read]
  · exact fun _ same => line.head_ne (by decide) (by decide) (List.cons.inj same).1
  · exact fun _ same => line.head_ne (by decide) (by decide) (List.cons.inj same).1

end Numbers

/-! ### Arrays -/

/-- The characters that may be skipped between the items of an array. -/
def layoutSigns : List Char :=
  ['\r', '\n', '#', ' ', '\t']

theorem skipLayout_visible {c : Char} (visible : c ∉ layoutSigns) (rest : List Char) :
    skipLayout false (c :: rest) = c :: rest := by
  simp only [layoutSigns, List.mem_cons, List.not_mem_nil, or_false, not_or] at visible
  obtain ⟨noReturn, noBreak, noComment, noSpace, noTab⟩ := visible
  rw [skipLayout, if_neg (by decide), if_neg noComment, if_neg (by simp [isBlank, noSpace, noTab])]
  · exact fun _ same _ => noReturn same
  · exact fun same => noBreak same

theorem readSimple_writeText (name : String) (rest : List Char)
    (stops : ∀ c ∈ rest.head?, c ≠ '"') :
    readSimple (writeText name.toList ++ rest) = some (.text name, rest) := by
  have read := readText_writeText name.toList rest stops
  obtain ⟨c, tail, written, quote⟩ := exists_writeText name.toList
  rw [written, List.cons_append] at read ⊢
  rw [readSimple, if_pos quote, read, Option.map_some]
  simp only [String.ofList_toList]

theorem readValue_writeText (depth : Nat) (name : String) (rest : List Char)
    (stops : ∀ c ∈ rest.head?, c ≠ '"') :
    readValue depth (writeText name.toList ++ rest) = some (.text name, rest) := by
  have read := readSimple_writeText name rest stops
  obtain ⟨c, tail, written, quote⟩ := exists_writeText name.toList
  rw [written, List.cons_append] at read ⊢
  cases depth with
  | zero => exact read
  | succ depth => rcases quote with rfl | rfl <;> exact read

section Items

variable {readItem : List Char → Option (Value × List Char)} {bound : Nat}
  {text rest after : List Char} {value : Value} {items : List Value}

/-- A line break and blanks before an item do not count. -/
theorem readItems_indented (text : List Char) :
    readItems readItem bound ('\n' :: ' ' :: ' ' :: ' ' :: ' ' :: text) =
      readItems readItem bound text := by
  have blank (text : List Char) : skipLayout false (' ' :: text) = skipLayout false text := by
    rw [skipLayout, if_neg (by decide), if_neg (by decide), if_pos (by decide)]
    all_goals simp
  have skipped : skipLayout false ('\n' :: ' ' :: ' ' :: ' ' :: ' ' :: text) =
      skipLayout false text := by
    rw [skipLayout, blank, blank, blank, blank]
  cases bound with
  | zero => rfl
  | succ bound => rw [readItems, readItems, skipped]

/-- Whether a text begins with an item of an array, and not with layout or a bracket. -/
structure OpensItem (text : List Char) : Prop where
  visible : skipLayout false text = text
  noBracket : ∀ rest, text ≠ ']' :: rest

theorem opensItem_writeText (name : String) (rest : List Char) :
    OpensItem (writeText name.toList ++ rest) := by
  obtain ⟨c, tail, written, quote⟩ := exists_writeText name.toList
  have visible : c ∉ layoutSigns := by rcases quote with rfl | rfl <;> decide
  have noBracket : c ≠ ']' := by rcases quote with rfl | rfl <;> decide
  rw [written, List.cons_append]
  exact ⟨skipLayout_visible visible _, fun _ same => noBracket (List.cons.inj same).1⟩

theorem readItems_last (opens : OpensItem text) (read : readItem text = some (value, ']' :: rest)) :
    readItems readItem (bound + 1) text = some ([value], rest) := by
  have atRest := skipLayout_visible (by decide : ']' ∉ layoutSigns) rest
  rw [readItems, opens.visible]
  split
  · exact absurd rfl (opens.noBracket _)
  · simp only [read, bind, Option.bind, atRest]
    rfl

theorem readItems_next (opens : OpensItem text) (read : readItem text = some (value, ',' :: after))
    (others : readItems readItem bound after = some (items, rest)) :
    readItems readItem (bound + 1) text = some (value :: items, rest) := by
  have atAfter := skipLayout_visible (by decide : ',' ∉ layoutSigns) after
  rw [readItems, opens.visible]
  split
  · exact absurd rfl (opens.noBracket _)
  · simp only [read, bind, Option.bind, atAfter, others]
    rfl

end Items

/-- A string on a line of its own in an array. -/
def itemLine (name : String) : List Char :=
  '\n' :: ' ' :: ' ' :: ' ' :: ' ' :: (writeText name.toList ++ [','])

/-- Strings with a line and a comma for each of them are read back up to the bracket behind them. -/
theorem readItems_itemLines (depth : Nat) (names : List String) {bound : Nat}
    (enough : names.length < bound) (rest : List Char) :
    readItems (readValue depth) bound (names.flatMap itemLine ++ '\n' :: ']' :: rest) =
      some (names.map .text, rest) := by
  induction names generalizing bound with
  | nil =>
    obtain ⟨bound, rfl⟩ := Nat.exists_eq_succ_of_ne_zero (Nat.ne_zero_of_lt enough)
    rfl
  | cons name names ih =>
    obtain ⟨bound, rfl⟩ := Nat.exists_eq_succ_of_ne_zero (Nat.ne_zero_of_lt enough)
    let others := names.flatMap itemLine ++ '\n' :: ']' :: rest
    have following : readItems (readValue depth) bound others = some (names.map .text, rest) :=
      ih (Nat.lt_of_succ_lt_succ enough)
    have read := readValue_writeText depth name (',' :: others) (by simp)
    have whole := readItems_next (opensItem_writeText name _) read following
    have text : (name :: names).flatMap itemLine ++ '\n' :: ']' :: rest =
        '\n' :: ' ' :: ' ' :: ' ' :: ' ' :: (writeText name.toList ++ ',' :: others) := by
      simp only [List.flatMap_cons, itemLine, List.append_assoc, List.cons_append, List.nil_append,
        others]
    rw [text, readItems_indented, whole, List.map_cons]

theorem length_le_flatMap_itemLine (names : List String) :
    names.length ≤ (names.flatMap itemLine).length := by
  induction names with
  | nil => exact Nat.le_refl 0
  | cons name names ih =>
    simp only [List.flatMap_cons, List.length_append, List.length_cons, itemLine]
    omega

theorem writeArray_eq_itemLines (first second : String) (names : List String) :
    writeArray ((first :: second :: names).map fun name => writeText name.toList) =
      '[' :: ((first :: second :: names).flatMap itemLine ++ ['\n', ']']) := by
  change '[' :: (((first :: second :: names).map fun name => writeText name.toList).flatMap _ ++
    ['\n', ']']) = _
  rw [List.flatMap_map]
  rfl

/-- An array of strings is read as the strings. -/
theorem readValue_writeArray (names : List String) (rest : List Char) :
    readValue nestingLimit (writeArray (names.map fun name => writeText name.toList) ++ rest) =
      some (.array (names.map .text), rest) := by
  match names with
  | [] => rfl
  | [name] =>
    have item := readValue_writeText 78 name (']' :: rest) (by simp)
    have items (bound : Nat) : readItems (readValue 78) (bound + 1)
        (writeText name.toList ++ ']' :: rest) = some ([.text name], rest) :=
      readItems_last (opensItem_writeText name _) item
    rw [List.map_singleton, writeArray, List.cons_append, List.append_assoc, List.singleton_append,
      nestingLimit, readValue, items, Option.map_some, List.map_singleton]
  | first :: second :: names =>
    have each := length_le_flatMap_itemLine (first :: second :: names)
    have enough : (first :: second :: names).length <
        ((first :: second :: names).flatMap itemLine ++ '\n' :: ']' :: rest).length + 1 := by
      rw [List.length_append]
      omega
    have items := readItems_itemLines 78 (first :: second :: names) enough rest
    rw [writeArray_eq_itemLines, List.cons_append, List.append_assoc, List.cons_append,
      List.singleton_append, nestingLimit, readValue, items, Option.map_some]

/-! ### Lines -/

section Lines

variable {key value rest : List Char} {read : Value}

/-- A key begins with nothing that means something else at the start of a line. -/
theorem BareKey.exists_cons (bare : BareKey key) :
    ∃ c tail, key = c :: tail ∧ ∀ other, isKeyChar other = false → c ≠ other := by
  obtain ⟨c, tail, rfl⟩ := List.exists_cons_of_ne_nil bare.nonempty
  refine ⟨c, tail, rfl, ?_⟩
  rintro other noKey rfl
  rw [bare.chars c List.mem_cons_self] at noKey
  cases noKey

theorem readKey_bare (bare : BareKey key) (rest : List Char) :
    readKey nestingLimit (key ++ ' ' :: '=' :: rest) =
      some ([], String.ofList key, '=' :: rest) := by
  have stops : ∀ c ∈ (' ' :: '=' :: rest).head?, isKeyChar c = false := by
    intro c atHead
    cases atHead
    rfl
  obtain ⟨taken, dropped⟩ := span_append bare.chars stops
  obtain ⟨c, tail, rfl, other⟩ := bare.exists_cons
  have part : readKeyPart (c :: tail ++ ' ' :: '=' :: rest) =
      some (String.ofList (c :: tail), ' ' :: '=' :: rest) := by
    rw [readKeyPart, taken, dropped]
    · exact fun _ same => other '"' rfl (List.cons.inj same).1
    · exact fun _ same => other '\'' rfl (List.cons.inj same).1
  have start : skipBlanks (c :: tail ++ ' ' :: '=' :: rest) = c :: tail ++ ' ' :: '=' :: rest :=
    skipBlanks_visible (other ' ' rfl) (other '\t' rfl) _
  have behind : skipBlanks (' ' :: '=' :: rest) = '=' :: rest := rfl
  rw [nestingLimit, readKey, start, part]
  simp only [bind, Option.bind, behind]
  rfl

theorem skipLineEnd_bare (bare : BareKey key) (rest : List Char) :
    skipLineEnd (key ++ rest) = none := by
  obtain ⟨c, tail, rfl, other⟩ := bare.exists_cons
  have start := skipBlanks_visible (other ' ' rfl) (other '\t' rfl) (tail ++ rest)
  have noComment : c ≠ '#' := other '#' rfl
  have noBreak : c ≠ '\n' := other '\n' rfl
  have noReturn : c ≠ '\r' := other '\r' rfl
  simp [skipLineEnd, start, noComment, noBreak, noReturn]

/-- A line with a key and a value adds the value under the key. -/
theorem readLine_bare (bare : BareKey key) (members : Members)
    (fresh : members.lookup (String.ofList key) = none)
    (opens : skipBlanks (value ++ '\n' :: rest) = value ++ '\n' :: rest)
    (reads : readValue nestingLimit (value ++ '\n' :: rest) = some (read, '\n' :: rest)) :
    readLine ⟨members, []⟩ (key ++ ' ' :: '=' :: ' ' :: (value ++ '\n' :: rest)) =
      some (⟨members ++ [(String.ofList key, read)], []⟩, '\n' :: rest) := by
  have atKey := readKey_bare bare (' ' :: (value ++ '\n' :: rest))
  have start : skipBlanks (' ' :: (value ++ '\n' :: rest)) = value ++ '\n' :: rest := opens
  have assignment : readAssignment (readValue nestingLimit)
      (key ++ ' ' :: '=' :: ' ' :: (value ++ '\n' :: rest)) =
        some ([], String.ofList key, read, '\n' :: rest) := by
    simp only [readAssignment, atKey, start, reads, bind, Option.bind]
    rfl
  have added : members.changeAt? (Members.addDotted? (String.ofList key) read true []) [] =
      some (members ++ [(String.ofList key, read)]) := by
    simp [Members.changeAt?, Members.addDotted?, Members.add?, fresh]
  obtain ⟨c, tail, rfl, other⟩ := bare.exists_cons
  have noHeader : c ≠ '[' := other '[' rfl
  rw [readLine, assignment]
  · simp only [bind, Option.bind, added]
    rfl
  · exact fun _ same => noHeader (List.cons.inj same).1
  · exact fun _ same => noHeader (List.cons.inj same).1

theorem readLines_writeLine (bare : BareKey key) (members : Members)
    (fresh : members.lookup (String.ofList key) = none)
    (opens : skipBlanks (value ++ '\n' :: rest) = value ++ '\n' :: rest)
    (reads : readValue nestingLimit (value ++ '\n' :: rest) = some (read, '\n' :: rest))
    (bound : Nat) :
    readLines (bound + 1) ⟨members, []⟩ (writeLine key value ++ rest) =
      readLines bound ⟨members ++ [(String.ofList key, read)], []⟩ rest := by
  have line := readLine_bare bare members fresh opens reads
  have noEnd := skipLineEnd_bare bare (' ' :: '=' :: ' ' :: (value ++ '\n' :: rest))
  have atEnd : skipLineEnd ('\n' :: rest) = some rest := rfl
  have text :
      writeLine key value ++ rest = key ++ ' ' :: '=' :: ' ' :: (value ++ '\n' :: rest) := by
    simp [writeLine]
  obtain ⟨c, tail, rfl, other⟩ := bare.exists_cons
  have start := skipBlanks_visible (other ' ' rfl) (other '\t' rfl)
    (tail ++ ' ' :: '=' :: ' ' :: (value ++ '\n' :: rest))
  rw [List.cons_append] at line noEnd text
  rw [text, readLines, start]
  simp only [noEnd, line, bind, Option.bind, atEnd]

/-- A key is no mark of an encoding. -/
theorem readDocument_bare (bare : BareKey key) (rest : List Char) :
    readDocument (key ++ rest) = readLines ((key ++ rest).length + 1) ⟨[], []⟩ (key ++ rest) := by
  obtain ⟨c, tail, rfl, other⟩ := bare.exists_cons
  have noMark : c ≠ byteOrderMark := other byteOrderMark rfl
  simp [readDocument, noMark]

end Lines

/-! ### Documents -/

theorem greatestInteger_eq : greatestInteger = 9223372036854775807 := by
  decide

/-- A datum is read from its line as the value that it stands for. -/
theorem exists_writeDatum {datum : Datum}
    (bounded : ∀ value, datum = .number value → value ≤ 9223372036854775807) :
    ∃ written, writeDatum datum = some written ∧ ∀ rest,
      skipBlanks (written ++ '\n' :: rest) = written ++ '\n' :: rest ∧
        readValue nestingLimit (written ++ '\n' :: rest) = some (datum.toValue, '\n' :: rest) := by
  cases datum with
  | number value =>
    have fits : (value : Int) ≤ greatestInteger := by
      have limit := bounded value rfl
      rw [greatestInteger_eq]
      omega
    refine ⟨_, if_pos fits, fun rest => ⟨skipBlanks_toDigits value rest, ?_⟩⟩
    exact readValue_toDigits value rest fits
  | texts items =>
    refine ⟨_, rfl, fun rest => ⟨?_, readValue_writeArray items ('\n' :: rest)⟩⟩
    match items with
    | [] => rfl
    | [item] => rfl
    | first :: second :: items => rfl

theorem Storable.tail {member : String × Datum} {members : List (String × Datum)}
    (storable : Storable (member :: members)) : Storable members where
  keys next inside := storable.keys next (List.mem_cons_of_mem member inside)
  distinct := (List.nodup_cons.mp storable.distinct).2
  numbers key value inside := storable.numbers key value (List.mem_cons_of_mem member inside)

/-- The members of a table as they are read back. -/
def readBack (members : List (String × Datum)) : Members :=
  members.map fun member => (member.1, member.2.toValue)

/-- The lines of a table add its members one after another to those before them. -/
theorem readLines_writeDocument {members : List (String × Datum)} (storable : Storable members)
    (former : Members) (fresh : ∀ key ∈ members.map Prod.fst, former.lookup key = none) :
    ∃ text, writeDocument members = some text ∧ members.length ≤ text.length ∧
      ∀ bound, members.length < bound →
        readLines bound ⟨former, []⟩ text = some (former ++ readBack members) := by
  induction members generalizing former with
  | nil =>
    refine ⟨[], rfl, Nat.le_refl 0, fun bound enough => ?_⟩
    obtain ⟨bound, rfl⟩ := Nat.exists_eq_succ_of_ne_zero (Nat.ne_zero_of_lt enough)
    rw [readBack, List.map_nil, List.append_nil]
    rfl
  | cons member members ih =>
    obtain ⟨key, datum⟩ := member
    have bare : BareKey key.toList := storable.keys _ List.mem_cons_self
    have missing : former.lookup key = none := fresh key List.mem_cons_self
    obtain ⟨written, value, reads⟩ := exists_writeDatum fun value same =>
      storable.numbers key value (same ▸ List.mem_cons_self)
    have later : ∀ other ∈ members.map Prod.fst,
        (former ++ [(key, datum.toValue)]).lookup other = none := by
      intro other inside
      have different : other ≠ key := by
        rintro rfl
        exact (List.nodup_cons.mp storable.distinct).1 inside
      have absent : former.lookup other = none := fresh other (List.mem_cons_of_mem key inside)
      rw [List.lookup_append, absent, List.lookup_cons, beq_false_of_ne different]
      rfl
    obtain ⟨text, rest, long, lines⟩ := ih storable.tail (former ++ [(key, datum.toValue)]) later
    refine ⟨writeLine key.toList written ++ text, ?_, ?_, fun bound enough => ?_⟩
    · simp only [writeDocument, value, rest, bind, Option.bind]
      rfl
    · simp only [writeLine, List.length_append, List.length_cons]
      omega
    · obtain ⟨bound, rfl⟩ := Nat.exists_eq_succ_of_ne_zero (Nat.ne_zero_of_lt enough)
      obtain ⟨opens, read⟩ := reads text
      have line := readLines_writeLine bare former (by rwa [String.ofList_toList]) opens read bound
      rw [line, String.ofList_toList, lines bound (Nat.lt_of_succ_lt_succ enough),
        List.append_assoc]
      rfl

theorem lookup_readBack (key : String) (members : List (String × Datum)) :
    (readBack members).lookup key = (members.lookup key).map Datum.toValue := by
  induction members with
  | nil => rfl
  | cons member members ih =>
    rw [readBack, List.map_cons, List.lookup_cons, List.lookup_cons]
    split
    · rfl
    · exact ih

/-- A table is read back from its document. -/
theorem readDocument_writeDocument {members : List (String × Datum)} (storable : Storable members) :
    ∃ text, writeDocument members = some text ∧ readDocument text = some (readBack members) := by
  obtain ⟨text, written, long, lines⟩ :=
    readLines_writeDocument storable [] fun key _ => List.lookup_nil
  refine ⟨text, written, ?_⟩
  have read := lines (text.length + 1) (Nat.lt_succ_of_le long)
  cases members with
  | nil =>
    cases written
    exact read
  | cons member members =>
    have bare : BareKey member.1.toList := storable.keys _ List.mem_cons_self
    obtain ⟨value, _, rest⟩ := Option.bind_eq_some_iff.mp written
    obtain ⟨others, _, same⟩ := Option.bind_eq_some_iff.mp rest
    obtain rfl := Option.some.inj same
    rw [writeLine, List.append_assoc] at read ⊢
    rw [readDocument_bare bare, read, List.nil_append]

/-- A number beyond the integers of the format cannot be written. -/
theorem writeDocument_of_exceeds {members : List (String × Datum)} {key : String} {value : Nat}
    (inside : (key, .number value) ∈ members) (exceeds : 9223372036854775807 < value) :
    writeDocument members = none := by
  induction members with
  | nil => exact absurd inside List.not_mem_nil
  | cons member members ih =>
    obtain ⟨name, datum⟩ := member
    rw [writeDocument]
    rcases List.mem_cons.mp inside with same | later
    · obtain ⟨rfl, rfl⟩ := Prod.mk.inj same
      have beyond : ¬(value : Int) ≤ greatestInteger := by
        rw [greatestInteger_eq]
        omega
      rw [writeDatum, if_neg beyond]
      rfl
    · rw [ih later]
      cases writeDatum datum <;> rfl

end RecordQuery.Toml
