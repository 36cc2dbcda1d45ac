import Mathlib
import RecordQuery.Proofs.Matching

namespace RecordQuery.Like

/-- Signs that mean something in a regular expression and reach it as they are. -/
def passedSigns : List Char :=
  ['.', '*', '+', '|', '^', '$', ')']

/-- What the reader of a pattern takes at once: a sign that stands for itself, or a wildcard for one
character or for any run of them. -/
inductive Piece
  | char (value : Char)
  | one
  | run
deriving DecidableEq

/-- A pattern from left to right. A backslash is taken together with the wildcard behind it, which
then stands for itself. Before anything else it is a sign like any other. -/
def pieces : List Char → List Piece
  | [] => []
  | '\\' :: '_' :: rest => .char '_' :: pieces rest
  | '\\' :: '%' :: rest => .char '%' :: pieces rest
  | '_' :: rest => .one :: pieces rest
  | '%' :: rest => .run :: pieces rest
  | c :: rest => .char c :: pieces rest

/-- The texts that a piece stands for. Wildcards do not reach across line breaks. -/
def Piece.Takes : Piece → List Char → Prop
  | .char value, part => part = [value]
  | .one, part => ∃ c, part = [c] ∧ c ≠ '\n'
  | .run, part => '\n' ∉ part

/-- Whether a text is what the pieces stand for, one after another. -/
def Fits : List Piece → List Char → Prop
  | [], part => part = []
  | piece :: rest, part => ∃ front back, part = front ++ back ∧ piece.Takes front ∧ Fits rest back

/-! ### The regular expression of the pieces -/

namespace Piece

/-- The expression for a piece. A sign is escaped where the expression could take it for syntax of
its own, unless it is one of those that are passed on. -/
def source : Piece → List Char
  | .char value => if value ∈ Regex.escapable then ['\\', value] else [value]
  | .one => ['.', '{', '1', '}']
  | .run => ['.', '*']

/-- What the expression for a piece is read as. -/
def item (offset : Nat) : Piece → Item
  | .char value => ⟨.char value, offset, []⟩
  | .one => ⟨.any, offset, [⟨.once, offset + 4⟩]⟩
  | .run => ⟨.any, offset, [⟨.star, offset + 2⟩]⟩

/-- Whether a piece is read in the expression as what it is in the pattern. Wildcards always are, and a
sign is if it is not one of those that are passed on. -/
def Plain (piece : Piece) : Prop :=
  ∀ value, piece = .char value → value ∉ passedSigns

end Piece

/-- The translation of a pattern is that of its pieces, whatever signs it has. -/
theorem regexText_eq_flatMap (pattern : List Char) :
    regexText pattern = (pieces pattern).flatMap Piece.source := by
  fun_induction pieces pattern with
  | case1 => rfl
  | case2 rest ih => rw [regexText, ih, List.flatMap_cons]; rfl
  | case3 rest ih => rw [regexText, ih, List.flatMap_cons]; rfl
  | case4 rest ih => rw [regexText, ih, List.flatMap_cons]; rfl
  | case5 rest ih => rw [regexText, ih, List.flatMap_cons]; rfl
  | case6 c rest notOneSign notRunSign notOne notRun ih =>
    rw [List.flatMap_cons, Piece.source, ← ih]
    by_cases backslash : c = '\\'
    · subst backslash
      rw [regexText]
      · rfl
      · exact fun _ => notOneSign _ rfl
      · exact fun _ => notRunSign _ rfl
    · have escaped : c ∈ Regex.escapable ↔ c ∈ plainSigns := by
        rw [Regex.escapable, List.mem_cons, or_iff_right backslash]
      rw [regexText]
      · simp only [escaped]
        split <;> rfl
      all_goals grind

theorem char_mem_pieces {value : Char} {pattern : List Char}
    (member : .char value ∈ pieces pattern) : value ∈ pattern := by
  fun_induction pieces pattern with
  | case1 => simp at member
  | case2 rest ih => grind
  | case3 rest ih => grind
  | case4 rest ih => grind
  | case5 rest ih => grind
  | case6 c rest _ _ _ _ ih => grind

/-! ### Reading the expression -/

/-- The items of pieces whose expression begins at an offset. -/
def itemsFrom (offset : Nat) : List Piece → List Item
  | [] => []
  | piece :: rest => piece.item offset :: itemsFrom (offset + piece.source.length) rest

theorem readFrom_source {piece : Piece} (plain : piece.Plain) (offset : Nat)
    (finished : List (List Item)) (items : List Item) (rest : List Char) :
    Regex.readFrom offset finished items (piece.source ++ rest) =
      Regex.readFrom (offset + piece.source.length) finished (piece.item offset :: items) rest := by
  cases piece with
  | one => rfl
  | run => rfl
  | char value =>
    have passed := plain value rfl
    by_cases escaped : value ∈ Regex.escapable
    · have source : (Piece.char value).source = ['\\', value] := if_pos escaped
      rw [source, List.cons_append, List.cons_append, List.nil_append, Regex.readFrom, if_pos escaped]
      rfl
    · have source : (Piece.char value).source = [value] := if_neg escaped
      have other (sign : Char) (meant : sign ∈ passedSigns ++ Regex.escapable) : value ≠ sign := by
        rintro rfl
        exact (List.mem_append.mp meant).elim passed escaped
      rw [source, List.cons_append, List.nil_append, Regex.readFrom, if_neg escaped]
      · rfl
      · exact fun _ _ same _ => other _ (by decide) same
      · exact fun _ same _ => other _ (by decide) same
      all_goals exact other _ (by decide)

theorem readFrom_flatMap {wanted : List Piece} (plain : ∀ piece ∈ wanted, piece.Plain) (offset : Nat)
    (items : List Item) :
    Regex.readFrom offset [] items (wanted.flatMap Piece.source) =
      .ok ⟨[items.reverse ++ itemsFrom offset wanted]⟩ := by
  induction wanted generalizing offset items with
  | nil => rw [itemsFrom, List.append_nil]; rfl
  | cons piece rest ih =>
    obtain ⟨plainPiece, plainRest⟩ := List.forall_mem_cons.mp plain
    rw [List.flatMap_cons, readFrom_source plainPiece, ih plainRest, itemsFrom, List.reverse_cons,
      List.append_assoc, List.singleton_append]

theorem suffixes_length_le {wanted : List Piece} {offset : Nat} {item : Item}
    (member : item ∈ itemsFrom offset wanted) : item.suffixes.length ≤ 1 := by
  induction wanted generalizing offset with
  | nil => exact absurd member List.not_mem_nil
  | cons piece rest ih =>
    rcases List.mem_cons.mp member with rfl | later
    · cases piece with
      | char => exact Nat.zero_le 1
      | _ => exact Nat.le_refl 1
    · exact ih later

/-- Several alternatives take a level and so do several items in a row. All other levels are taken by
operators. -/
theorem firstOverNested?_eq_none {regex : Regex} {count : Nat}
    (short : ∀ items ∈ regex.alternatives, ∀ item ∈ items, item.suffixes.length ≤ count)
    (few : count + 2 ≤ Regex.nestingLimit) : regex.firstOverNested? = none := by
  have atMost {α : Type} (members : List α) : Regex.levelOf members ≤ 1 := by
    unfold Regex.levelOf
    split <;> decide
  simp only [Regex.firstOverNested?, List.findSome?_eq_none_iff]
  intro items inRegex item inItems
  have suffixes := short items inRegex item inItems
  have alternatives := atMost regex.alternatives
  have sequence := atMost items
  have within : Regex.levelOf regex.alternatives + Regex.levelOf items + item.suffixes.length ≤
      Regex.nestingLimit := by omega
  simp [Regex.overNested?, within]

theorem read_regexText {pattern : List Char} (plain : ∀ sign ∈ pattern, sign ∉ passedSigns) :
    Regex.read (regexText pattern) = .ok ⟨[itemsFrom 0 (pieces pattern)]⟩ := by
  have plainPieces : ∀ piece ∈ pieces pattern, piece.Plain := by
    rintro piece member value rfl
    exact plain value (char_mem_pieces member)
  have short : ∀ items ∈ (⟨[itemsFrom 0 (pieces pattern)]⟩ : Regex).alternatives,
      ∀ item ∈ items, item.suffixes.length ≤ 1 :=
    List.forall_mem_singleton.mpr fun item member => suffixes_length_le member
  rw [Regex.read, regexText_eq_flatMap, readFrom_flatMap plainPieces, List.reverse_nil,
    List.nil_append]
  simp only [bind, Except.bind, firstOverNested?_eq_none short (by decide)]

/-! ### Matching the items -/

variable {holds : List Char → Prop} {text : List Char} {after : List Bool}

namespace Piece

def accepts : Piece → Char → Bool
  | .char value => (· == value)
  | .one | .run => (· != '\n')

def count : Piece → Count
  | .char _ | .one => .one
  | .run => .anyNumber

theorem takes_iff {piece : Piece} {part : List Char} :
    piece.Takes part ↔ piece.count.Allows part.length ∧ ∀ c ∈ part, piece.accepts c = true := by
  cases piece with
  | char value =>
    simp only [Takes, count, Count.Allows, accepts, beq_iff_eq, List.length_eq_one_iff]
    constructor
    · rintro rfl
      exact ⟨⟨value, rfl⟩, fun c member => List.mem_singleton.mp member⟩
    · rintro ⟨⟨c, rfl⟩, same⟩
      rw [same c List.mem_cons_self]
  | one =>
    simp only [Takes, count, Count.Allows, accepts, bne_iff_ne, List.length_eq_one_iff]
    constructor
    · rintro ⟨c, rfl, different⟩
      exact ⟨⟨c, rfl⟩, List.forall_mem_singleton.mpr different⟩
    · rintro ⟨⟨c, rfl⟩, different⟩
      exact ⟨c, rfl, different c List.mem_cons_self⟩
  | run =>
    simp only [Takes, count, Count.Allows, accepts, bne_iff_ne, true_and]
    exact List.forall_mem_ne'.symm

end Piece

theorem marked_item (marked : Marked holds text after) (piece : Piece) (offset : Nat) :
    Marked (fun rest => ∃ front back, rest = front ++ back ∧ piece.Takes front ∧ holds back) text
      ((piece.item offset).marks text after) := by
  have marks : (piece.item offset).marks text after =
      marksOfRun piece.accepts piece.count text after := by
    cases piece <;> rfl
  rw [marks]
  refine (marked.run piece.count).congr fun rest => ?_
  simp only [Run, Piece.takes_iff, and_assoc]

theorem marked_items (text : List Char) (wanted : List Piece) (offset : Nat) :
    Marked (fun rest => ∃ part behind, rest = part ++ behind ∧ Fits wanted part) text
      (marksOfItems text (itemsFrom offset wanted)) := by
  induction wanted generalizing offset with
  | nil =>
    refine (Marked.everywhere text).congr fun rest => iff_of_true trivial ?_
    exact ⟨[], rest, rfl, rfl⟩
  | cons piece wanted ih =>
    refine (marked_item (ih (offset + piece.source.length)) piece offset).congr fun rest => ?_
    constructor
    · rintro ⟨front, back, rfl, takes, part, behind, rfl, fits⟩
      exact ⟨front ++ part, behind, (List.append_assoc _ _ _).symm, front, part, rfl, takes, fits⟩
    · rintro ⟨_, behind, rfl, front, part, rfl, takes, fits⟩
      exact ⟨front, part ++ behind, List.append_assoc _ _ _, takes, part, behind, rfl, fits⟩

namespace Pattern

/-- A pattern without signs that pass through means what its wildcards say: it is accepted, and it
matches the texts that have a part which its pieces stand for. -/
theorem isMatch_iff_fits (text : String) (plain : ∀ sign ∈ text.toList, sign ∉ passedSigns) :
    ∃ pattern, compile text = .ok pattern ∧ ∀ subject : String,
      pattern.isMatch subject = true ↔
        ∃ before part behind, subject.toList = before ++ part ++ behind ∧
          Fits (pieces text.toList) part := by
  refine ⟨⟨text, ⟨[itemsFrom 0 (pieces text.toList)]⟩⟩, ?_, fun subject => ?_⟩
  · rw [compile, read_regexText plain]
    rfl
  · have marked := marked_items subject.toList (pieces text.toList) 0
    rw [isMatch, Regex.isMatch, List.any_cons, List.any_nil, Bool.or_false, marked.any_iff]
    constructor
    · rintro ⟨before, _, split, part, behind, rfl, fits⟩
      exact ⟨before, part, behind, by rw [split, List.append_assoc], fits⟩
    · rintro ⟨before, part, behind, split, fits⟩
      exact ⟨before, part ++ behind, by rw [split, List.append_assoc], part, behind, rfl, fits⟩

/-- An underscore that is escaped and one that is not, a run that would have to pass a line break, and
signs that would be operators in a regular expression. -/
theorem isMatch_iff_fits_escaped :
    let text := "\\_%?_\x7b1\x7d"
    let reading : List Piece := [.char '_', .run, .char '?', .one, .char '{', .char '1', .char '}']
    pieces text.toList = reading ∧
      ∃ pattern, compile text = .ok pattern ∧ pattern.isMatch "x_ab?c\x7b1\x7dy" = true ∧
        ¬∃ before part behind, "_a\nb?c\x7b1\x7d".toList = before ++ part ++ behind ∧
          Fits reading part := by
  intro text reading
  have signs : text.toList = ['\\', '_', '%', '?', '_', '{', '1', '}'] := by
    unfold text
    rfl
  have plain : ∀ sign ∈ text.toList, sign ∉ passedSigns := by
    rw [signs]
    simp [passedSigns]
  have read : pieces text.toList = reading := by
    rw [signs]
    rfl
  obtain ⟨pattern, accepted, matched⟩ := isMatch_iff_fits text plain
  rw [read] at matched
  let part := ['_', 'a', 'b', '?', 'c', '{', '1', '}']
  refine ⟨read, pattern, accepted, (matched _).mpr ⟨['x'], part, ['y'], rfl, ?_⟩, fun fitting => ?_⟩
  · exact ⟨['_'], _, rfl, rfl, ['a', 'b'], _, rfl, by simp [Piece.Takes], ['?'], _, rfl, rfl, ['c'], _,
      rfl, ⟨'c', rfl, by decide⟩, ['{'], _, rfl, rfl, ['1'], _, rfl, rfl, ['}'], _, rfl, rfl, rfl⟩
  · have found := (matched _).mpr fitting
    have computed : (compile text).map (·.isMatch "_a\nb?c\x7b1\x7d") = .ok false := by
      unfold text
      cbv
    rw [accepted] at computed
    exact Bool.false_ne_true ((Except.ok.inj computed).symm.trans found)

end Pattern

end RecordQuery.Like
