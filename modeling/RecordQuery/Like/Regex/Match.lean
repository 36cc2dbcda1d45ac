import RecordQuery.Like.Regex

namespace RecordQuery.Like

/-- How many characters in a row an item takes. Operators behind one another come down to
one of three cases. -/
inductive Count
  | one
  | oneOrMore
  | anyNumber
deriving DecidableEq

def Count.repeated : Count → Repetition → Count
  | count, .once => count
  | _, .star => .anyNumber
  | .anyNumber, .plus => .anyNumber
  | _, .plus => .oneOrMore

def Item.count (item : Item) : Count :=
  item.suffixes.foldl (fun count suffix => count.repeated suffix.repetition) .one

/-- A match is found from the end. Marks say of each place in a text, from the first
character to the place behind the last, whether the rest of the expression can start there.
This marks the places before one accepted character. -/
def marksBefore (accepts : Char → Bool) : List Char → List Bool → List Bool
  | c :: text, _ :: after => (accepts c && after.headD false) :: marksBefore accepts text after
  | _, _ => [false]

/-- Marks the places before one or more accepted characters. -/
def marksBeforeRun (accepts : Char → Bool) : List Char → List Bool → List Bool
  | c :: text, _ :: after =>
    let rest := marksBeforeRun accepts text after
    (accepts c && (after.headD false || rest.headD false)) :: rest
  | _, _ => [false]

def marksAtStart : List Bool → List Bool
  | [] => []
  | mark :: rest => mark :: rest.map fun _ => false

def marksAtStop : List Bool → List Bool
  | [] => []
  | [mark] => [mark]
  | _ :: rest => false :: marksAtStop rest

/-- The places where an item that takes characters can start. -/
def marksOfRun (accepts : Char → Bool) (count : Count) (text : List Char) (after : List Bool) :
    List Bool :=
  match count with
  | .one => marksBefore accepts text after
  | .oneOrMore => marksBeforeRun accepts text after
  | .anyNumber => List.zipWith (· || ·) after (marksBeforeRun accepts text after)

/-- The places where an item can start. An assertion that may occur zero times holds
everywhere, and repeating it otherwise changes nothing. -/
def Item.marks (item : Item) (text : List Char) (after : List Bool) : List Bool :=
  match item.atom, item.count with
  | .char value, count => marksOfRun (· == value) count text after
  | .any, count => marksOfRun (· != '\n') count text after
  | .start, .anyNumber => after
  | .start, _ => marksAtStart after
  | .stop, .anyNumber => after
  | .stop, _ => marksAtStop after

/-- The places where a sequence of items can start. -/
def marksOfItems (text : List Char) (items : List Item) : List Bool :=
  items.foldr (fun item after => item.marks text after) (List.replicate (text.length + 1) true)

/-- Whether some part of a text matches one of the alternatives. -/
def Regex.isMatch (regex : Regex) (text : List Char) : Bool :=
  regex.alternatives.any fun items => (marksOfItems text items).any id

end RecordQuery.Like
