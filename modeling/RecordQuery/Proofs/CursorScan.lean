import RecordQuery.Proofs.Cursor
import RecordQuery.Proofs.Spelling

namespace RecordQuery.Cursor

/-- The entries for tokens, with the end of input behind the last one. -/
def entriesOf (tokens : List Token) (lastColumn : Nat) : List Entry :=
  tokens.map (fun token => ⟨some token.kind, token.column⟩) ++ [⟨none, lastColumn⟩]

/-- What the reading of a token comes to if its length is given instead of what follows it. -/
def measured : Except LexicalError (TokenKind × List Char) → Outcome LexicalError (TokenKind × Nat)
  | .ok (kind, _) => .done (kind, kind.width)
  | .error error => .refused error

section Lists

variable {ε α : Type} {front part rest items : List α}

theorem itemAt_eq_done {item : α} (split : items = front ++ item :: rest) :
    (itemAt items front.length : Outcome ε α) = .done item := by
  subst split
  simp [itemAt]

/-- A part that stands in a list is cut out of it. -/
theorem slice_eq_done (rest : List α) {start stop : Nat} (split : items = front ++ (part ++ rest))
    (atStart : start = front.length) (atStop : stop = front.length + part.length) :
    (slice items start stop : Outcome ε (List α)) = .done part := by
  subst split atStart atStop
  rw [slice, if_pos ⟨Nat.le_add_right _ _, by simp only [List.length_append]; omega⟩]
  simp

theorem slice_behind (front : List α) {start : Nat} (split : items = front ++ rest)
    (atStart : start = front.length) :
    (slice items start items.length : Outcome ε (List α)) = .done rest := by
  refine slice_eq_done [] (by rw [split, List.append_nil]) atStart ?_
  rw [split, List.length_append]

end Lists

variable {chars front rest : List Char} {c : Char}

/-! ### Tokens of some length -/

theorem unquote_eq_done {ε : Type} (mark : Char) (content : List Char) :
    (unquote (mark :: (content ++ [mark])) : Outcome ε String) = .done (String.ofList content) := by
  rw [unquote, if_pos (by simp), List.tail_cons, List.dropLast_concat]

theorem findIdx?_delimiter {mark : Char} {content : List Char} (absent : mark ∉ content)
    (after : List Char) : (content ++ mark :: after).findIdx? (· == mark) = some content.length := by
  have none : content.findIdx? (· == mark) = none := by
    rw [List.findIdx?_eq_none_iff]
    intro c member
    exact beq_false_of_ne (ne_of_mem_of_not_mem member absent)
  simp [List.findIdx?_append, none, List.findIdx?_cons]

theorem readText_of_not_mem {mark : QuoteMark} (absent : mark.char ∉ rest) :
    Token.readText mark rest = .error .unterminatedText := by
  have inside : ∀ c ∈ rest, (c != mark.char) = true := fun c member =>
    bne_iff_ne.mpr (ne_of_mem_of_not_mem member absent)
  have none : (rest ++ []).dropWhile (· != mark.char) = [] := (span_append inside (by simp)).2
  rw [List.append_nil] at none
  rw [Token.readText, none]

theorem textAt_eq_measured (mark : QuoteMark) (split : chars = front ++ mark.char :: rest) :
    textAt chars front.length mark = measured (Token.readText mark rest) := by
  have behind : (slice chars (front.length + 1) chars.length : Outcome LexicalError (List Char)) =
      .done rest := slice_behind (front ++ [mark.char]) (by simp [split]) (by simp)
  rw [textAt, behind, Outcome.done_bind]
  by_cases closed : mark.char ∈ rest
  · obtain ⟨content, after, rfl, absent⟩ := List.eq_append_cons_of_mem closed
    have written : (slice chars front.length (front.length + (content.length + 2)) :
        Outcome LexicalError (List Char)) = .done (mark.char :: (content ++ [mark.char])) :=
      slice_eq_done after (by simp [split]) rfl (by simp)
    rw [findIdx?_delimiter absent, Token.readText_content absent]
    simp only [written, Outcome.done_bind, unquote_eq_done, measured]
    have width : (TokenKind.text ⟨mark, String.ofList content⟩).width = content.length + 2 := by
      simp only [TokenKind.width, TokenKind.spelling, QuoteMark.enclose, String.length_ofList,
        List.length_cons, List.length_append, String.toList_ofList, List.length_nil]
    rw [width]
    rfl
  · have none : rest.findIdx? (· == mark.char) = none := by
      rw [List.findIdx?_eq_none_iff]
      intro c member
      exact beq_false_of_ne (ne_of_mem_of_not_mem member closed)
    rw [none, readText_of_not_mem closed]
    rfl

theorem integerAt_eq_measured {negative : Bool} (sign : List Char)
    (split : chars = front ++ (sign ++ rest)) (atSign : sign = if negative then ['-'] else []) :
    integerAt chars front.length negative = measured (Token.readInteger negative rest) := by
  have first : (if negative then front.length + 1 else front.length) = front.length + sign.length := by
    rw [atSign]
    cases negative <;> rfl
  have behind : (slice chars (front.length + sign.length) chars.length :
      Outcome LexicalError (List Char)) = .done rest :=
    slice_behind (front ++ sign) (by rw [split, List.append_assoc]) (by rw [List.length_append])
  have whole := List.takeWhile_append_dropWhile (p := Char.isDigit) (l := rest)
  simp only [integerAt, Token.readInteger, first, behind, Outcome.done_bind, Nat.add_sub_cancel_left]
  cases run : rest.takeWhile Char.isDigit with
  | nil => rfl
  | cons d digits =>
    rw [run] at whole
    have written : (slice chars front.length (front.length + (sign.length + (d :: digits).length)) :
        Outcome LexicalError (List Char)) = .done (sign ++ d :: digits) :=
      slice_eq_done (rest.dropWhile Char.isDigit) (by rw [split, List.append_assoc, whole]) rfl
        (by rw [List.length_append])
    have letters : (TokenKind.integer ⟨negative, String.ofList (d :: digits)⟩).spelling.toList =
        sign ++ d :: digits := by
      rw [atSign]
      cases negative <;> simp [TokenKind.spelling, Numeral.spelling]
    have width : (TokenKind.integer ⟨negative, String.ofList (d :: digits)⟩).width =
        sign.length + (d :: digits).length := by
      rw [TokenKind.width, ← String.length_toList, letters, List.length_append]
    have some : (d :: digits).length ≠ 0 := Nat.succ_ne_zero _
    rw [if_neg some, written, Outcome.done_bind, List.drop_left, measured, width]
    rfl

theorem nameAt_eq_done (split : chars = front ++ rest) :
    nameAt chars front.length =
      .done (Token.ofName (String.ofList (rest.takeWhile Token.continuesName)),
        (rest.takeWhile Token.continuesName).length) := by
  have behind : (slice chars front.length chars.length : Outcome LexicalError (List Char)) =
      .done rest := slice_behind front split rfl
  have whole := List.takeWhile_append_dropWhile (p := Token.continuesName) (l := rest)
  have written : (slice chars front.length (front.length + (rest.takeWhile Token.continuesName).length) :
      Outcome LexicalError (List Char)) = .done (rest.takeWhile Token.continuesName) :=
    slice_eq_done (rest.dropWhile Token.continuesName) (by rw [split, whole]) rfl rfl
  simp only [nameAt, behind, Outcome.done_bind, written]
  rfl

/-- Behind a character there is an equals sign or there is none. -/
theorem equalsBehind_cases (split : chars = front ++ c :: rest) :
    (equalsBehind chars front.length = true ∧ ∃ more, rest = '=' :: more) ∨
      equalsBehind chars front.length = false ∧ ∀ more, rest ≠ '=' :: more := by
  have behind : chars[front.length + 1]? = rest.head? := by
    rw [split, List.getElem?_append_right (Nat.le_add_right _ _), Nat.add_sub_cancel_left,
      List.getElem?_cons_succ, List.head?_eq_getElem?]
  rw [equalsBehind, behind]
  cases rest with
  | nil => exact Or.inr ⟨rfl, nofun⟩
  | cons d more =>
    by_cases same : d = '='
    · exact Or.inl ⟨by simp [same], more, by rw [same]⟩
    · exact Or.inr ⟨by simp [same], fun others sameList => same (List.cons.inj sameList).1⟩

/-- Without an equals sign behind it, a sign of order stands alone, and an exclamation mark is no token. -/
theorem readKind_of_no_equals (other : ∀ more, rest ≠ '=' :: more) :
    Token.readKind '!' rest = .error (.unexpectedCharacter '!') ∧
      Token.readKind '<' rest = .ok (.relation .lt, rest) ∧
      Token.readKind '>' rest = .ok (.relation .gt, rest) := by
  refine ⟨?_, ?_, ?_⟩
  · rw [Token.readKind]
    · rfl
    all_goals simp [other]
  · rw [Token.readKind]
    exact other
  · rw [Token.readKind]
    exact other

/-- The token at a position is the one that its character and what follows it are read as. -/
theorem kindAt_eq_measured (split : chars = front ++ c :: rest) :
    kindAt chars front.length c = measured (Token.readKind c rest) := by
  have equals := equalsBehind_cases split
  unfold kindAt
  split
  case h_7 | h_8 | h_9 =>
    rcases equals with ⟨same, more, rfl⟩ | ⟨same, other⟩
    · rw [if_pos same]
      rfl
    · obtain ⟨noNe, lt, gt⟩ := readKind_of_no_equals other
      simp only [same, noNe, lt, gt]
      rfl
  case h_10 => exact textAt_eq_measured .single split
  case h_11 => exact textAt_eq_measured .double split
  case h_12 => exact integerAt_eq_measured ['-'] split rfl
  case h_13 =>
    by_cases digit : c.isDigit
    · rw [if_pos digit, Token.readKind_of_isDigit digit]
      exact integerAt_eq_measured [] split rfl
    by_cases starts : Token.startsName c
    · have continues : Token.continuesName c = true := by
        simp only [Token.startsName, Bool.or_eq_true] at starts
        rcases starts with letter | underscore
        · simp [Token.continuesName, Char.isAlphanum, letter]
        · simp [Token.continuesName, underscore]
      rw [if_neg digit, if_pos starts, Token.readKind_of_startsName starts, nameAt_eq_done split,
        List.takeWhile_cons_of_pos continues, measured, TokenKind.width, Token.spelling_ofName,
        String.length_ofList]
    · -- the characters with a case of their own are excluded here
      have unread : Token.readKind c rest = .error (.unexpectedCharacter c) := by
        rw [Token.readKind] <;> simp_all
      rw [if_neg digit, if_neg starts, unread]
      rfl
  all_goals rfl

/-! ### All tokens -/

theorem scanFrom_end (entries : List Entry) :
    scanFrom chars entries chars.length = .done (entries ++ [⟨none, chars.length + 1⟩]) := by
  rw [scanFrom, if_neg (Nat.lt_irrefl _)]
  rfl

/-- A round that takes something is followed by the next one. -/
theorem scanFrom_of_round {entries more : List Entry} {length : Nat} (split : chars = front ++ c :: rest)
    (taken : round chars front.length = .done (more, length)) (progress : 0 < length) :
    scanFrom chars entries front.length = scanFrom chars (entries ++ more) (front.length + length) := by
  have inside : front.length < chars.length := by
    rw [split, List.length_append, List.length_cons]
    omega
  rw [scanFrom, if_pos inside, taken, Outcome.done_bind]
  exact if_pos progress

theorem round_of_visible (split : chars = front ++ c :: rest) (visible : ¬Text.isBlank c = true) :
    round chars front.length =
      (measured (Token.readKind c rest)).mapError ((front.length + 1, ·)) >>= fun (kind, length) =>
        .done ([⟨some kind, front.length + 1⟩], length) := by
  rw [round, itemAt_eq_done split, Outcome.done_bind, if_neg visible, kindAt_eq_measured split]
  rfl

/-- Reading by positions finds the same tokens, and the same first place where there is none. -/
theorem scanFrom_eq_ofExcept (split : chars = front ++ rest) (entries : List Entry) :
    scanFrom chars entries front.length =
      .ofExcept ((Token.scanFrom (front.length + 1) rest).map fun tokens =>
        entries ++ entriesOf tokens (chars.length + 1)) := by
  generalize atColumn : front.length + 1 = column
  -- the position stays one behind the column while the text that has been read grows
  fun_induction Token.scanFrom column rest generalizing front entries with
  | case1 column =>
    rw [List.append_nil] at split
    rw [← split, scanFrom_end]
    rfl
  | case2 column c rest blank ih =>
    have taken : round chars front.length = .done ([], 1) := by
      rw [round, itemAt_eq_done split, Outcome.done_bind, if_pos blank]
      rfl
    have further : chars = (front ++ [c]) ++ rest := by simp [split]
    have later := ih further entries (by rw [List.length_append, ← atColumn]; rfl)
    rw [scanFrom_of_round split taken Nat.one_pos, List.append_nil]
    simpa using later
  | case3 column c rest visible error failed =>
    have inside : front.length < chars.length := by
      rw [split, List.length_append, List.length_cons]
      omega
    rw [scanFrom, if_pos inside, round_of_visible split visible, failed, ← atColumn]
    rfl
  | case4 column c text visible kind rest read ih =>
    obtain ⟨_, _, whole⟩ := Token.spelling_of_readKind read
    have shorter := Token.readKind_length read
    have lengths := congrArg List.length whole
    simp only [List.length_cons, List.length_append, String.length_toList] at lengths
    have taken : round chars front.length = .done ([⟨some kind, column⟩], kind.width) := by
      rw [round_of_visible split visible, read, ← atColumn]
      rfl
    have further : chars = (front ++ kind.spelling.toList) ++ rest := by
      rw [split, whole, List.append_assoc]
    have later := ih further (entries ++ [⟨some kind, column⟩])
      (by rw [List.length_append, String.length_toList, ← atColumn, TokenKind.width]; omega)
    rw [List.length_append, String.length_toList] at later
    rw [scanFrom_of_round split taken (by rw [TokenKind.width]; omega)]
    refine later.trans ?_
    cases Token.scanFrom (column + kind.width) rest with
    | error error => rfl
    | ok tokens => simp [Except.map, entriesOf]

end RecordQuery.Cursor
