import Mathlib
import RecordQuery.Like.Regex.Report
import RecordQuery.Proofs.Wildcards

namespace RecordQuery.Like

/-! ### What reaches the reader of expressions -/

/-- Expressions with escapes, one kind of count and signs, and no other syntax. From left to right, every
backslash is followed by a sign that needs one, and a sign that would begin a class, a group or a count
is escaped or belongs to the count for one character. -/
inductive Confined : List Char → Prop
  | nil : Confined []
  | escape {sign : Char} {rest : List Char} :
      sign ∈ Regex.escapable → Confined rest → Confined ('\\' :: sign :: rest)
  | once {rest : List Char} : Confined rest → Confined ('.' :: '{' :: '1' :: '}' :: rest)
  | sign {c : Char} {rest : List Char} :
      c ∉ Regex.escapable → Confined rest → Confined (c :: rest)

theorem Confined.source_append {rest : List Char} (confined : Confined rest) (piece : Piece) :
    Confined (piece.source ++ rest) := by
  cases piece with
  | one => exact .once confined
  | run => exact .sign (by decide) (.sign (by decide) confined)
  | char value =>
    by_cases escaped : value ∈ Regex.escapable
    · simpa [Piece.source, escaped] using Confined.escape escaped confined
    · simpa [Piece.source, escaped] using Confined.sign escaped confined

theorem confined_regexText (pattern : List Char) : Confined (regexText pattern) := by
  rw [regexText_eq_flatMap]
  induction pieces pattern with
  | nil => exact .nil
  | cons piece rest ih => simpa only [List.flatMap_cons] using ih.source_append piece

/-! ### Places in a pattern that no expression can have -/

/-- Whether an alternative begins behind a text. A backslash does not change what a bar means. -/
def begins (before : List Char) : Bool :=
  before.getLast?.all (· == '|')

def isOperator (sign : Char) : Bool :=
  sign == '*' || sign == '+'

/-- What is wrong with a sign of a pattern: it closes a group, where there are none, or it is an
operator at the beginning of an alternative, where there is nothing to repeat. -/
def offence? (atBeginning : Bool) (sign : Char) : Option RegexError :=
  if sign = ')' then some .unopenedGroup
  else if isOperator sign && atBeginning then some .nothingToRepeat
  else none

/-- The first offence in a pattern, or in what is left of it. -/
def firstOffence? (atBeginning : Bool) : List Char → Option RegexError
  | [] => none
  | sign :: rest => (offence? atBeginning sign).or (firstOffence? (sign == '|') rest)

/-- A pattern, or what is left of one behind a text, that has no offence. -/
def Flawless (before pattern : List Char) : Prop :=
  ∀ front sign back, pattern = front ++ sign :: back → offence? (begins (before ++ front)) sign = none

variable {before front pattern : List Char} {sign : Char} {error : RegexError}

theorem begins_concat (before : List Char) (sign : Char) : begins (before ++ [sign]) = (sign == '|') := by
  simp [begins]

theorem begins_iff : begins before = true ↔ before = [] ∨ before.getLast? = some '|' := by
  cases last : before.getLast? with
  | none => simp [begins, List.getLast?_eq_none_iff.mp last]
  | some sign =>
    have nonempty : before ≠ [] := by
      rintro rfl
      simp at last
    simp [begins, last, nonempty]

theorem offence?_eq_some_iff {atBeginning : Bool} : offence? atBeginning sign = some error ↔
    sign = ')' ∧ error = .unopenedGroup ∨
      isOperator sign = true ∧ atBeginning = true ∧ error = .nothingToRepeat := by
  by_cases closes : sign = ')'
  · simp [offence?, closes, isOperator, eq_comm]
  · by_cases repeats : isOperator sign = true ∧ atBeginning = true
    · simp [offence?, closes, repeats, eq_comm]
    · simp only [offence?, closes, if_false, Bool.and_eq_true, repeats, reduceCtorEq, false_and,
        false_or, false_iff]
      exact fun offends => repeats ⟨offends.1, offends.2.1⟩

theorem firstOffence?_kind {atBeginning : Bool} (offends : firstOffence? atBeginning pattern = some error) :
    error = .unopenedGroup ∨ error = .nothingToRepeat := by
  induction pattern generalizing atBeginning with
  | nil => simp [firstOffence?] at offends
  | cons sign pattern ih =>
    rw [firstOffence?] at offends
    rcases Option.or_eq_some_iff.mp offends with here | ⟨_, later⟩
    · exact (offence?_eq_some_iff.mp here).imp And.right fun repeats => repeats.2.2
    · exact ih later

theorem flawless_cons_iff : Flawless before (sign :: pattern) ↔
    offence? (begins before) sign = none ∧ Flawless (before ++ [sign]) pattern := by
  constructor
  · intro flawless
    refine ⟨by simpa using flawless [] sign pattern rfl, fun front other back split => ?_⟩
    simpa using flawless (sign :: front) other back (by rw [split, List.cons_append])
  · rintro ⟨here, later⟩ front other back split
    cases front with
    | nil =>
      obtain ⟨rfl, rfl⟩ := List.cons.inj split
      simpa using here
    | cons first front =>
      obtain ⟨rfl, behind⟩ := List.cons.inj split
      simpa using later front other back behind

theorem firstOffence?_eq_none_iff (before pattern : List Char) :
    firstOffence? (begins before) pattern = none ↔ Flawless before pattern := by
  induction pattern generalizing before with
  | nil => simp [firstOffence?, Flawless]
  | cons sign pattern ih =>
    rw [firstOffence?, Option.or_eq_none_iff, ← begins_concat before sign, ih, flawless_cons_iff]

/-- An offence with no other one before it is the first. -/
theorem firstOffence?_of_flawless (flawless : Flawless before front)
    (offends : offence? (begins (before ++ front)) sign = some error) (back : List Char) :
    firstOffence? (begins before) (front ++ sign :: back) = some error := by
  induction front generalizing before with
  | nil =>
    rw [List.append_nil] at offends
    rw [List.nil_append, firstOffence?, offends, Option.some_or]
  | cons first front ih =>
    obtain ⟨here, later⟩ := flawless_cons_iff.mp flawless
    rw [List.cons_append, firstOffence?, here, Option.none_or, ← begins_concat before first]
    exact ih later (by simpa using offends)

/-! ### Reading the expression of any pattern -/

/-- The sign of a pattern that a piece comes from, without the backslash that it may have had. -/
def Piece.origin : Piece → Char
  | .char value => value
  | .one => '_'
  | .run => '%'

/-- A backslash before a wildcard is no offence, and neither is the wildcard, escaped or not. -/
theorem firstOffence?_origins (atBeginning : Bool) (pattern : List Char) :
    firstOffence? atBeginning ((pieces pattern).map Piece.origin) = firstOffence? atBeginning pattern := by
  fun_induction pieces pattern generalizing atBeginning with
  | case1 => rfl
  | case2 rest ih => simp [Piece.origin, firstOffence?, offence?, isOperator, ih]
  | case3 rest ih => simp [Piece.origin, firstOffence?, offence?, isOperator, ih]
  | case4 rest ih => simp [Piece.origin, firstOffence?, ih]
  | case5 rest ih => simp [Piece.origin, firstOffence?, ih]
  | case6 c rest _ _ _ _ ih => simp [Piece.origin, firstOffence?, ih]

theorem countP_origins (pattern : List Char) :
    ((pieces pattern).map Piece.origin).countP isOperator = pattern.countP isOperator := by
  fun_induction pieces pattern with
  | case1 => rfl
  | case2 rest ih => simp [Piece.origin, isOperator, ih]
  | case3 rest ih => simp [Piece.origin, isOperator, ih]
  | case4 rest ih => simp [Piece.origin, ih, List.countP_cons]
  | case5 rest ih => simp [Piece.origin, ih, List.countP_cons]
  | case6 c rest _ _ _ _ ih => simp [Piece.origin, ih, List.countP_cons]

/-- What reading has to come to: the error that is due, or else an expression whose items have at most
so many operators. -/
def ReadAs (bound : Nat) : Option RegexError → Except RegexFault Regex → Prop
  | some error, .error fault => fault.error = error
  | none, .ok regex => ∀ items ∈ regex.alternatives, ∀ item ∈ items, item.suffixes.length ≤ bound
  | _, _ => False

variable {piece : Piece} {bound : Nat} {finished : List (List Item)} {items : List Item}

theorem Piece.eq_char_of_origin (origin : piece.origin = sign) (noWildcard : sign ∉ ['_', '%']) :
    piece = .char sign := by
  subst origin
  cases piece with
  | one => simp [Piece.origin] at noWildcard
  | run => simp [Piece.origin] at noWildcard
  | char value => rfl

theorem Piece.eq_char_of_isOperator (operator : isOperator piece.origin = true) :
    piece = .char '*' ∨ piece = .char '+' := by
  simp only [isOperator, Bool.or_eq_true, beq_iff_eq] at operator
  exact operator.imp (eq_char_of_origin · (by decide)) (eq_char_of_origin · (by decide))

/-- A piece that is neither an operator nor a bar nor a closing sign becomes an item. -/
theorem readFrom_item (other : piece.origin ∉ [')', '*', '+', '|']) (offset : Nat)
    (finished : List (List Item)) (items : List Item) (rest : List Char) :
    ∃ item : Item, item.suffixes.length ≤ 1 ∧
      Regex.readFrom offset finished items (piece.source ++ rest) =
        Regex.readFrom (offset + piece.source.length) finished (item :: items) rest := by
  by_cases plain : piece.Plain
  · refine ⟨piece.item offset, ?_, readFrom_source plain offset finished items rest⟩
    cases piece <;> simp [Piece.item]
  · -- the signs that are passed on and stand for something else than themselves
    obtain ⟨value, rfl, passed⟩ : ∃ value, piece = .char value ∧ value ∈ passedSigns := by
      simpa [Piece.Plain] using plain
    have meant : value = '.' ∨ value = '^' ∨ value = '$' := by
      simp only [Piece.origin, passedSigns, List.mem_cons, List.not_mem_nil, or_false] at other passed
      grind
    obtain rfl | rfl | rfl := meant
    · exact ⟨⟨.any, offset, []⟩, by simp, rfl⟩
    · exact ⟨⟨.start, offset, []⟩, by simp, rfl⟩
    · exact ⟨⟨.stop, offset, []⟩, by simp, rfl⟩

theorem readFrom_operator_nil (operator : isOperator piece.origin = true) (offset : Nat)
    (finished : List (List Item)) (rest : List Char) :
    Regex.readFrom offset finished [] (piece.source ++ rest) =
      .error ⟨.nothingToRepeat, offset, offset⟩ := by
  obtain rfl | rfl := Piece.eq_char_of_isOperator operator <;> rfl

theorem readFrom_operator_cons (operator : isOperator piece.origin = true) (offset : Nat)
    (finished : List (List Item)) (item : Item) (earlier : List Item) (rest : List Char) :
    ∃ suffix, Regex.readFrom offset finished (item :: earlier) (piece.source ++ rest) =
      Regex.readFrom (offset + 1) finished
        ({ item with suffixes := item.suffixes ++ [suffix] } :: earlier) rest := by
  obtain rfl | rfl := Piece.eq_char_of_isOperator operator
  · exact ⟨⟨.star, offset + 1⟩, rfl⟩
  · exact ⟨⟨.plus, offset + 1⟩, rfl⟩

/-- Whether no item that has been read has more than so many operators. -/
def Within (bound : Nat) (finished : List (List Item)) (items : List Item) : Prop :=
  ∀ group ∈ items :: finished, ∀ item ∈ group, item.suffixes.length ≤ bound

/-- An operator behind an item is read as one more operator of it. -/
theorem Within.operator {item : Item} {earlier : List Item}
    (within : Within bound finished (item :: earlier)) (suffix : Suffix) :
    Within (bound + 1) finished
      ({ item with suffixes := item.suffixes ++ [suffix] } :: earlier) := by
  intro group inGroups other inGroup
  rcases List.mem_cons.mp inGroups with rfl | old
  · rcases List.mem_cons.mp inGroup with rfl | before
    · have length := within _ List.mem_cons_self item List.mem_cons_self
      simpa using length
    · have length := within _ List.mem_cons_self other (List.mem_cons_of_mem item before)
      omega
  · have length := within group (List.mem_cons_of_mem _ old) other inGroup
    omega

theorem Within.item {item : Item} (within : Within bound finished items)
    (short : item.suffixes.length ≤ bound) : Within bound finished (item :: items) := by
  obtain ⟨atItems, atFinished⟩ := List.forall_mem_cons.mp within
  exact List.forall_mem_cons.mpr ⟨List.forall_mem_cons.mpr ⟨short, atItems⟩, atFinished⟩

/-- A piece with an offence ends the reading with it. Behind any other piece the reading goes on, and an
alternative begins there if the piece is a bar. -/
theorem readFrom_piece (piece : Piece) (positive : 1 ≤ bound) (within : Within bound finished items)
    (offset : Nat) (rest : List Char) :
    (∃ fault, Regex.readFrom offset finished items (piece.source ++ rest) = .error fault ∧
      offence? items.isEmpty piece.origin = some fault.error) ∨
    offence? items.isEmpty piece.origin = none ∧ ∃ offset' finished' items',
      Regex.readFrom offset finished items (piece.source ++ rest) =
        Regex.readFrom offset' finished' items' rest ∧
      items'.isEmpty = (piece.origin == '|') ∧
      Within (bound + if isOperator piece.origin then 1 else 0) finished' items' := by
  by_cases closes : piece.origin = ')'
  · have shape : piece = .char ')' := Piece.eq_char_of_origin closes (by decide)
    exact Or.inl ⟨⟨.unopenedGroup, offset, offset + 1⟩, by rw [shape]; rfl, by simp [offence?, closes]⟩
  by_cases operator : isOperator piece.origin = true
  · cases items with
    | nil =>
      exact Or.inl ⟨_, readFrom_operator_nil operator offset finished rest, by
        simp [offence?, closes, operator]⟩
    | cons item earlier =>
      obtain ⟨suffix, read⟩ := readFrom_operator_cons operator offset finished item earlier rest
      have notBar : piece.origin ≠ '|' := by
        intro bar
        simp [bar, isOperator] at operator
      refine Or.inr ⟨by simp [offence?, closes], _, _, _, read, by simp [notBar], ?_⟩
      simpa [operator] using within.operator suffix
  have unoffending : offence? items.isEmpty piece.origin = none := by
    simp [offence?, closes, operator]
  by_cases bar : piece.origin = '|'
  · have shape : piece = .char '|' := Piece.eq_char_of_origin bar (by decide)
    refine Or.inr ⟨unoffending, offset + 1, items.reverse :: finished, [], by rw [shape]; rfl,
      by simp [bar], ?_⟩
    simpa [Within, operator] using within
  · have other : piece.origin ∉ [')', '*', '+', '|'] := by
      simp only [isOperator, Bool.or_eq_true, beq_iff_eq, not_or] at operator
      simp [closes, operator, bar]
    obtain ⟨item, short, read⟩ := readFrom_item other offset finished items rest
    refine Or.inr ⟨unoffending, _, _, _, read, by simp [bar], ?_⟩
    simpa [operator] using within.item (short.trans positive)

/-- The reader stops at the first offence and at nothing else. Items have an operator when they come
from a wildcard, and get one more with every operator of the pattern. -/
theorem readAs_readFrom (wanted : List Piece) (positive : 1 ≤ bound)
    (within : Within bound finished items) (offset : Nat) :
    ReadAs (bound + (wanted.map Piece.origin).countP isOperator)
      (firstOffence? items.isEmpty (wanted.map Piece.origin))
      (Regex.readFrom offset finished items (wanted.flatMap Piece.source)) := by
  induction wanted generalizing offset bound finished items with
  | nil =>
    have read : Regex.readFrom offset finished items [] = .ok ⟨(items.reverse :: finished).reverse⟩ := by
      simp [Regex.readFrom]
    simpa [read, firstOffence?, ReadAs, Within, or_imp, forall_and, and_comm] using within
  | cons piece rest ih =>
    rw [List.map_cons, List.flatMap_cons, firstOffence?, List.countP_cons]
    rcases readFrom_piece piece positive within offset (rest.flatMap Piece.source) with
      ⟨fault, read, offends⟩ | ⟨unoffending, offset', finished', items', read, begun, within'⟩
    · rw [read, offends, Option.some_or]
      rfl
    · rw [read, unoffending, Option.none_or, ← begun, Nat.add_comm (List.countP _ _), ← Nat.add_assoc]
      exact ih (by omega) within' offset'

/-! ### Rejected patterns -/

theorem readAs_regexText (pattern : List Char) :
    ReadAs (1 + pattern.countP isOperator) (firstOffence? true pattern)
      (Regex.readFrom 0 [] [] (regexText pattern)) := by
  have within : Within 1 [] [] := by simp [Within]
  have read := readAs_readFrom (pieces pattern) (Nat.le_refl 1) within 0
  rwa [List.isEmpty_nil, firstOffence?_origins, countP_origins, ← regexText_eq_flatMap] at read

namespace Pattern

variable {text : String}

theorem compile_of_offence (offends : firstOffence? true text.toList = some error) :
    ∃ fault, compile text = .error fault ∧ fault.error = error := by
  have read := readAs_regexText text.toList
  rw [offends] at read
  cases atText : Regex.readFrom 0 [] [] (regexText text.toList) with
  | ok regex =>
    rw [atText] at read
    exact read.elim
  | error fault =>
    rw [atText] at read
    refine ⟨fault, ?_, read⟩
    simp [compile, Regex.read, atText, bind, Except.bind, Except.map]

/-- Without an offence a pattern can only nest too deep, and that takes many operators. -/
theorem compile_of_flawless (flawless : firstOffence? true text.toList = none) :
    (∃ pattern, compile text = .ok pattern) ∨
      ∃ fault, compile text = .error fault ∧ fault.error = .nestedTooDeep ∧
        Regex.nestingLimit ≤ text.toList.countP isOperator + 2 := by
  have read := readAs_regexText text.toList
  rw [flawless] at read
  cases atText : Regex.readFrom 0 [] [] (regexText text.toList) with
  | error fault =>
    rw [atText] at read
    exact read.elim
  | ok regex =>
    rw [atText] at read
    cases nested : regex.firstOverNested? with
    | none =>
      exact Or.inl ⟨⟨text, regex⟩, by
        simp [compile, Regex.read, atText, nested, bind, Except.bind, Except.map]⟩
    | some span =>
      refine Or.inr ⟨⟨.nestedTooDeep, span.1, span.2⟩, ?_, rfl, ?_⟩
      · simp [compile, Regex.read, atText, nested, bind, Except.bind, Except.map]
      · have short : ∀ items ∈ regex.alternatives, ∀ item ∈ items,
            item.suffixes.length ≤ 1 + text.toList.countP isOperator := read
        by_contra few
        rw [firstOverNested?_eq_none short (by omega)] at nested
        cases nested

theorem firstOffence?_eq_none_iff_flawless :
    firstOffence? true pattern = none ↔ Flawless [] pattern :=
  firstOffence?_eq_none_iff [] pattern

/-- The signs that a pattern must not have, and the places where it must not have them. -/
theorem not_flawless_iff : ¬Flawless [] pattern ↔
    ')' ∈ pattern ∨ ∃ before operator rest, pattern = before ++ operator :: rest ∧
      (operator = '*' ∨ operator = '+') ∧ (before = [] ∨ before.getLast? = some '|') := by
  constructor
  · intro flawed
    simp only [Flawless, List.nil_append, not_forall] at flawed
    obtain ⟨front, sign, back, split, offends⟩ := flawed
    obtain ⟨error, offence⟩ := Option.ne_none_iff_exists'.mp offends
    rcases offence?_eq_some_iff.mp offence with ⟨closes, _⟩ | ⟨operator, atBeginning, _⟩
    · exact Or.inl (by simp [split, closes])
    · refine Or.inr ⟨front, sign, back, split, ?_, begins_iff.mp atBeginning⟩
      simpa [isOperator] using operator
  · intro flawed flawless
    rcases flawed with closes | ⟨before, operator, rest, split, isOne, first⟩
    · obtain ⟨front, back, split⟩ := List.mem_iff_append.mp closes
      have unoffending := flawless front ')' back split
      simp [offence?] at unoffending
    · have unoffending := flawless before operator rest split
      rw [List.nil_append, begins_iff.mpr first] at unoffending
      rcases isOne with rfl | rfl <;> simp [offence?, isOperator] at unoffending

/-- What the engine is given is harmless, and it refuses a pattern at the first sign that closes a group
or has nothing to repeat, wherever backslashes stand. A pattern without such a sign is accepted unless
it nests too deep, for which it takes operators. -/
theorem compile_rejects_at_first_offence (text : String) :
    Confined (regexText text.toList) ∧
    ((∃ fault, compile text = .error fault ∧ (fault.error.message = "unopened group" ∨
        fault.error.message = "repetition operator missing expression")) ↔
      ')' ∈ text.toList ∨ ∃ before operator rest, text.toList = before ++ operator :: rest ∧
        (operator = '*' ∨ operator = '+') ∧ (before = [] ∨ before.getLast? = some '|')) ∧
    (∀ before sign rest error, text.toList = before ++ sign :: rest → Flawless [] before →
      offence? (begins before) sign = some error →
        ∃ fault, compile text = .error fault ∧ fault.error = error) ∧
    (Flawless [] text.toList →
      (∃ pattern, compile text = .ok pattern) ∨
        ∃ fault, compile text = .error fault ∧ fault.error = .nestedTooDeep ∧
          Regex.nestingLimit ≤ text.toList.countP isOperator + 2) ∧
    (Flawless [] text.toList → '*' ∉ text.toList → '+' ∉ text.toList →
      ∃ pattern, compile text = .ok pattern) := by
  refine ⟨confined_regexText text.toList, ?_, ?_, ?_, ?_⟩
  · rw [← not_flawless_iff, ← firstOffence?_eq_none_iff_flawless]
    constructor
    · rintro ⟨fault, refused, message⟩ flawless
      rcases compile_of_flawless flawless with ⟨pattern, accepted⟩ | ⟨other, nested, kind, _⟩
      · rw [accepted] at refused
        cases refused
      · rw [nested] at refused
        cases refused
        rw [kind] at message
        revert message
        decide
    · intro flawed
      obtain ⟨error, offends⟩ := Option.ne_none_iff_exists'.mp flawed
      obtain ⟨fault, refused, rfl⟩ := compile_of_offence offends
      exact ⟨fault, refused, (firstOffence?_kind offends).imp (congrArg RegexError.message)
        (congrArg RegexError.message)⟩
  · intro before sign rest error split flawless offends
    have first := firstOffence?_of_flawless flawless offends rest
    rw [← split] at first
    exact compile_of_offence first
  · intro flawless
    exact compile_of_flawless (firstOffence?_eq_none_iff_flawless.mpr flawless)
  · intro flawless noStar noPlus
    have none : text.toList.countP isOperator = 0 := by
      simp only [List.countP_eq_zero, isOperator, Bool.or_eq_true, beq_iff_eq]
      rintro sign member (rfl | rfl)
      · exact noStar member
      · exact noPlus member
    rcases compile_of_flawless (firstOffence?_eq_none_iff_flawless.mpr flawless) with
      accepted | ⟨_, _, _, many⟩
    · exact accepted
    · rw [none] at many
      exact absurd many (by decide)

/-- A bar starts an alternative even behind a backslash, so the star has nothing to repeat, and it comes
before the sign that closes no group. Without operators even a sign that begins a class does no harm. -/
theorem compile_rejects_at_first_offence_barred :
    let before := ['a', '\\', '|']
    "a\\|*)".toList = before ++ '*' :: [')'] ∧ Flawless [] before ∧
      offence? (begins before) '*' = some .nothingToRepeat ∧
      (∃ fault, compile "a\\|*)" = .error fault ∧ fault.error = .nothingToRepeat) ∧
      ∃ pattern, compile "[%|\\%_" = .ok pattern := by
  intro before
  obtain ⟨_, _, rejected, _, _⟩ := compile_rejects_at_first_offence "a\\|*)"
  obtain ⟨_, _, _, _, accepted⟩ := compile_rejects_at_first_offence "[%|\\%_"
  have split : "a\\|*)".toList = before ++ '*' :: [')'] := rfl
  have flawless : Flawless [] before := firstOffence?_eq_none_iff_flawless.mp rfl
  have offends : offence? (begins before) '*' = some .nothingToRepeat := rfl
  refine ⟨split, flawless, offends, rejected before '*' [')'] .nothingToRepeat split flawless offends, ?_⟩
  exact accepted (firstOffence?_eq_none_iff_flawless.mp rfl) (by decide) (by decide)

end Pattern

end RecordQuery.Like
