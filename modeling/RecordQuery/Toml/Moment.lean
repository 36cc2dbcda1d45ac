import RecordQuery.Number.Decimal
import RecordQuery.Toml.Table

namespace RecordQuery.Toml

def readFixed (width : Nat) (text : List Char) : Option (Nat × List Char) :=
  let digits := text.take width
  if digits.length = width ∧ digits.all Char.isDigit then
    some (Decimal.ofDigits digits, text.drop width)
  else none

def readBetween (width least greatest : Nat) (text : List Char) : Option (Nat × List Char) := do
  let (value, rest) ← readFixed width text
  if least ≤ value ∧ value ≤ greatest then return (value, rest) else none

def readSign (sign : Char) : List Char → Option (List Char)
  | c :: rest => if c = sign then some rest else none
  | [] => none

def isLeapYear (year : Nat) : Bool :=
  year % 4 == 0 && (year % 100 != 0 || year % 400 == 0)

def daysIn (year month : Nat) : Nat :=
  if month = 2 then if isLeapYear year then 29 else 28
  else if month ∈ [4, 6, 9, 11] then 30
  else 31

def skipDate (text : List Char) : Option (List Char) := do
  let (year, rest) ← readFixed 4 text
  let rest ← readSign '-' rest
  let (month, rest) ← readBetween 2 1 12 rest
  let rest ← readSign '-' rest
  let (_, rest) ← readBetween 2 1 (daysIn year month) rest
  return rest

def skipSecondFraction : List Char → Option (List Char)
  | '.' :: rest =>
    if rest.takeWhile Char.isDigit = [] then none else some (rest.dropWhile Char.isDigit)
  | text => some text

/-- Skips a time of day. A minute may have a leap second. -/
def skipTime (text : List Char) : Option (List Char) := do
  let (_, rest) ← readBetween 2 0 23 text
  let rest ← readSign ':' rest
  let (_, rest) ← readBetween 2 0 59 rest
  let rest ← readSign ':' rest
  let (_, rest) ← readBetween 2 0 60 rest
  skipSecondFraction rest

def skipOffset (text : List Char) : Option (List Char) :=
  match text with
  | [] => some text
  | c :: rest =>
    if c = 'Z' ∨ c = 'z' then some rest
    else if c = '+' ∨ c = '-' then do
      let (_, rest) ← readBetween 2 0 23 rest
      let rest ← readSign ':' rest
      let (_, rest) ← readBetween 2 0 59 rest
      return rest
    else some text

/-- Skips the time behind a date, if there is one. A blank before anything else than a time
ends the value. -/
def skipTimeAfterDate (text : List Char) : Option (List Char) :=
  match text with
  | [] => some text
  | c :: rest =>
    if c = 'T' ∨ c = 't' then (skipTime rest).bind skipOffset
    else if c = ' ' then
      match skipTime rest with
      | some rest => skipOffset rest
      | none => some text
    else some text

def skipMoment (text : List Char) : Option (List Char) :=
  match skipDate text with
  | some rest => skipTimeAfterDate rest
  | none => skipTime text

/-- Reads a date, a time, or both, as the text that it is. -/
def readMoment (text : List Char) : Option (Value × List Char) := do
  let rest ← skipMoment text
  return (.moment (String.ofList (text.take (text.length - rest.length))), rest)

end RecordQuery.Toml
