import RecordQuery.Number.Double

namespace RecordQuery

/-- A number as decimal text gives it: digits without a point, and the power of ten that
multiplies them. -/
structure Decimal where
  negative : Bool
  digits : Nat
  exponent : Int
deriving DecidableEq

namespace Decimal

/-- The longest front part made of digits, and what follows it. -/
def spanDigits (text : List Char) : List Char × List Char :=
  (text.takeWhile Char.isDigit, text.dropWhile Char.isDigit)

def ofDigits (digits : List Char) : Nat :=
  Nat.ofDigitChars 10 digits 0

/-- A leading sign, plus when there is none, and the text after it. -/
def readSign : List Char → Bool × List Char
  | '-' :: rest => (true, rest)
  | '+' :: rest => (false, rest)
  | text => (false, text)

/-- The digits before and after the point, and the text after them. Either side may be
empty but not both. -/
def readDigits (text : List Char) : Option (List Char × List Char × List Char) :=
  let (whole, rest) := spanDigits text
  let (fraction, rest) :=
    match rest with
    | '.' :: after => spanDigits after
    | _ => ([], rest)
  if whole.isEmpty && fraction.isEmpty then none else some (whole, fraction, rest)

/-- The exponent at the end of a number. Nothing may follow its digits. -/
def readExponent : List Char → Option Int
  | [] => some 0
  | mark :: rest =>
    if mark = 'e' ∨ mark = 'E' then
      let (negative, rest) := readSign rest
      let (digits, rest) := spanDigits rest
      if digits.isEmpty || !rest.isEmpty then none
      else some (if negative then -(ofDigits digits : Int) else ofDigits digits)
    else none

/-- Reads a sign, digits with an optional point and an optional exponent. -/
def ofText? (text : List Char) : Option Decimal := do
  let (negative, text) := readSign text
  let (whole, fraction, text) ← readDigits text
  let exponent ← readExponent text
  return ⟨negative, ofDigits (whole ++ fraction), exponent - fraction.length⟩

/-- The nearest binary number. A value whose first digit stands far outside the format's
range is decided by its place alone, because writing out such a power of ten would take
memory in proportion to the exponent. -/
def toDouble (decimal : Decimal) : Double :=
  let places : Int := (Nat.toDigits 10 decimal.digits).length + decimal.exponent
  if decimal.digits = 0 ∨ places < -330 then .ofRatio decimal.negative 0 1
  else if 310 < places then .infinite decimal.negative
  else
    .ofRatio decimal.negative (decimal.digits * Nat.pow 10 decimal.exponent.toNat)
      (Nat.pow 10 (-decimal.exponent).toNat)

end Decimal

namespace Double

def infinityWords : List (List Char) :=
  ["inf".toList, "infinity".toList]

/-- The number that a whole text denotes: decimal notation, or a word for infinity in any
case. The text of NaN denotes no number, as nothing compares with it. -/
def ofText? (text : List Char) : Option Double :=
  let (negative, word) := Decimal.readSign text
  if (word.map Char.toLower) ∈ infinityWords then some (.infinite negative)
  else (Decimal.ofText? text).map Decimal.toDouble

end Double

end RecordQuery
