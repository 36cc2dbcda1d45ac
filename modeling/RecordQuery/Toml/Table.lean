import RecordQuery.Number.Double

namespace RecordQuery.Toml

/-- How a table came to be: under a header of its own, on the way to another header, by the
dotted part of a key, or between braces. It decides what may still be added to it. -/
inductive Origin
  | header
  | implied
  | dotted
  | inline
deriving DecidableEq

/-- A value of a document. A fraction that is not a number has no value, and a date or time
keeps its text. -/
inductive Value
  | text (value : String)
  | integer (value : Int)
  | boolean (value : Bool)
  | fraction (value : Option Double)
  | moment (text : String)
  | array (items : List Value)
  | table (origin : Origin) (members : List (String × Value))
  | tables (items : List (List (String × Value)))

/-- The members of a table in the order of their appearance. -/
abbrev Members := List (String × Value)

/-- What can be written under a key. -/
inductive Datum
  | number (value : Nat)
  | texts (items : List String)

/-- The value as which something written is meant to be read. -/
def Datum.toValue : Datum → Value
  | .number value => .integer value
  | .texts items => .array (items.map .text)

namespace Members

def replace (key : String) (value : Value) (members : Members) : Members :=
  members.map fun member => if member.1 = key then (key, value) else member

/-- Adds a key that must not be present yet. -/
def add? (key : String) (value : Value) (members : Members) : Option Members :=
  if (members.lookup key).isSome then none else some (members ++ [(key, value)])

/-- Changes the last of the tables under one name. -/
def changeLast (change : Members → Option Members) : List Members → Option (List Members)
  | [] => none
  | [last] => (change last).map ([·])
  | first :: rest => (changeLast change rest).map (first :: ·)

/-- Adds a key below a dotted path. The tables on the path are made as needed. Tables with a
header of their own and tables between braces are complete and stay as they are, and the table
at the end of a path must be one that dotted keys made. -/
def addDotted? (key : String) (value : Value) (mayEnd : Bool) :
    List String → Members → Option Members
  | [], members => if mayEnd then members.add? key value else none
  | part :: path, members =>
    match members.lookup part with
    | none => do
      let inner ← addDotted? key value true path []
      members.add? part (.table .dotted inner)
    | some (.table .dotted inner) => do
      let inner ← addDotted? key value true path inner
      return members.replace part (.table .dotted inner)
    | some (.table .implied inner) => do
      let inner ← addDotted? key value false path inner
      return members.replace part (.table .implied inner)
    | some (.tables items) => do
      let items ← changeLast (addDotted? key value false path) items
      return members.replace part (.tables items)
    | _ => none

/-- Changes the table that a header's path leads to. Tables on the way are implied if they are
new, and of several tables under one name the last one is meant. -/
def changeAt? (change : Members → Option Members) : List String → Members → Option Members
  | [], members => change members
  | part :: path, members =>
    match members.lookup part with
    | none => do
      let inner ← changeAt? change path []
      members.add? part (.table .implied inner)
    | some (.table .inline _) => none
    | some (.table origin inner) => do
      let inner ← changeAt? change path inner
      return members.replace part (.table origin inner)
    | some (.tables items) => do
      let items ← changeLast (changeAt? change path) items
      return members.replace part (.tables items)
    | _ => none

/-- Begins the table of a header. A table that was only implied so far gets its header now. -/
def begin? (key : String) (members : Members) : Option Members :=
  match members.lookup key with
  | none => members.add? key (.table .header [])
  | some (.table .implied inner) => some (members.replace key (.table .header inner))
  | _ => none

def beginNext? (key : String) (members : Members) : Option Members :=
  match members.lookup key with
  | none => members.add? key (.tables [[]])
  | some (.tables items) => some (members.replace key (.tables (items ++ [[]])))
  | _ => none

end Members

end RecordQuery.Toml
