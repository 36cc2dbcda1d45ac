import RecordQuery.Like.Wildcard

namespace RecordQuery.Like

/-- What a regular expression asks of one place in a text. -/
inductive Atom
  | char (value : Char)
  | any
  | start
  | stop
deriving DecidableEq

/-- How often the expression before a repetition operator may occur. -/
inductive Repetition
  | star
  | plus
  | once
deriving DecidableEq

/-- A repetition operator with the offset at which it ends. -/
structure Suffix where
  repetition : Repetition
  stop : Nat
deriving DecidableEq

/-- An atom with the operators behind it, each of which repeats all that stands before it.
Offsets are kept because errors point at them. -/
structure Item where
  atom : Atom
  start : Nat
  suffixes : List Suffix
deriving DecidableEq

/-- A regular expression without groups: alternatives, each a sequence of items. -/
structure Regex where
  alternatives : List (List Item)
deriving DecidableEq

inductive RegexError
  | unopenedGroup
  | nothingToRepeat
  | nestedTooDeep
  | unsupported
deriving DecidableEq

/-- An error and the part of the text that shows it, from one offset up to another. -/
structure RegexFault where
  error : RegexError
  start : Nat
  stop : Nat
deriving DecidableEq

namespace Regex

/-- The signs that may follow a backslash: those that a pattern escapes, and the backslash. -/
def escapable : List Char :=
  '\\' :: plainSigns

/-- Puts an operator behind the latest item, if there is one. -/
def repeatLatest (repetition : Repetition) (stop : Nat) : List Item → Option (List Item)
  | [] => none
  | item :: earlier =>
    some ({ item with suffixes := item.suffixes ++ [⟨repetition, stop⟩] } :: earlier)

/-- Reads from an offset on. The finished alternatives and the items of the current one are
kept with the latest first. The first fault ends the reading. -/
def readFrom (offset : Nat) (finished : List (List Item)) (items : List Item) :
    List Char → Except RegexFault Regex
  | [] => .ok ⟨(items.reverse :: finished).reverse⟩
  | '\\' :: c :: rest =>
    if c ∈ escapable then readFrom (offset + 2) finished (⟨.char c, offset, []⟩ :: items) rest
    else .error ⟨.unsupported, offset, offset + 2⟩
  | '{' :: '1' :: '}' :: rest =>
    match repeatLatest .once (offset + 3) items with
    | some items => readFrom (offset + 3) finished items rest
    | none => .error ⟨.nothingToRepeat, offset, offset⟩
  | '*' :: rest =>
    match repeatLatest .star (offset + 1) items with
    | some items => readFrom (offset + 1) finished items rest
    | none => .error ⟨.nothingToRepeat, offset, offset⟩
  | '+' :: rest =>
    match repeatLatest .plus (offset + 1) items with
    | some items => readFrom (offset + 1) finished items rest
    | none => .error ⟨.nothingToRepeat, offset, offset⟩
  | '|' :: rest => readFrom (offset + 1) (items.reverse :: finished) [] rest
  | ')' :: _ => .error ⟨.unopenedGroup, offset, offset + 1⟩
  | '.' :: rest => readFrom (offset + 1) finished (⟨.any, offset, []⟩ :: items) rest
  | '^' :: rest => readFrom (offset + 1) finished (⟨.start, offset, []⟩ :: items) rest
  | '$' :: rest => readFrom (offset + 1) finished (⟨.stop, offset, []⟩ :: items) rest
  | c :: rest =>
    if c ∈ escapable then .error ⟨.unsupported, offset, offset + 1⟩
    else readFrom (offset + 1) finished (⟨.char c, offset, []⟩ :: items) rest

/-- How deep expressions may nest. Several alternatives count as a level, so does a sequence
of several items, and so does every operator. -/
def nestingLimit : Nat := 250

/-- The span of the first item that nests too deep at a level. It ends with the operator that
is one too many, seen from the outermost inwards. -/
def overNested? (level : Nat) (item : Item) : Option (Nat × Nat) :=
  if level + item.suffixes.length ≤ nestingLimit then none
  else
    (item.suffixes[level + item.suffixes.length - nestingLimit - 1]?).map fun suffix =>
      (item.start, suffix.stop)

/-- The level that a list of expressions adds. Only one with several members is a node. -/
def levelOf {α : Type} (members : List α) : Nat :=
  if 1 < members.length then 1 else 0

/-- The first place where the nesting limit is exceeded. -/
def firstOverNested? (regex : Regex) : Option (Nat × Nat) :=
  regex.alternatives.findSome? fun items =>
    items.findSome? (overNested? (levelOf regex.alternatives + levelOf items))

/-- Reads a regular expression. The nesting is measured when the text is read to its end. -/
def read (text : List Char) : Except RegexFault Regex := do
  let regex ← readFrom 0 [] [] text
  match regex.firstOverNested? with
  | some (start, stop) => .error ⟨.nestedTooDeep, start, stop⟩
  | none => .ok regex

end Regex

end RecordQuery.Like
