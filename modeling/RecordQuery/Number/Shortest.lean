import RecordQuery.Number.Double

namespace RecordQuery.Double

/-- The fewest digits of a decimal number that still reads back as a given binary number. -/
structure Shortest where
  digits : Nat
  exponent : Int
deriving DecidableEq

/-- The positive numbers that round to `mantissa * 2 ^ exponent`, in quarters of its unit.
The lower neighbour is closer where the exponent changes, and an end belongs to the interval
when the mantissa is even. -/
structure Interval where
  low : Nat
  value : Nat
  high : Nat
  closed : Bool
  exponent : Int

def interval (mantissa : Nat) (exponent : Int) : Interval where
  low :=
    if mantissa = Nat.pow 2 (precision - 1) ∧ leastExponent < exponent then 4 * mantissa - 1
    else 4 * mantissa - 2
  value := 4 * mantissa
  high := 4 * mantissa + 2
  closed := mantissa % 2 == 0
  exponent := exponent - 2

namespace Interval

/-- A decimal and a number of quarter units on one scale, on which they can be compared. -/
def scales (i : Interval) (place : Int) : Nat × Nat :=
  (Nat.pow 10 place.toNat * Nat.pow 2 (-i.exponent).toNat,
    Nat.pow 2 i.exponent.toNat * Nat.pow 10 (-place).toNat)

/-- Whether `digits * 10 ^ place` rounds to the number. -/
def contains (i : Interval) (digits : Nat) (place : Int) : Bool :=
  let (decimalScale, binaryScale) := i.scales place
  let candidate := digits * decimalScale
  let low := i.low * binaryScale
  let high := i.high * binaryScale
  if i.closed then low ≤ candidate && candidate ≤ high else low < candidate && candidate < high

/-- The better of the two decimals with the given last place around the value: the only one
that rounds to it, or else the nearer one, or else the one with an even last digit. -/
def nearest? (i : Interval) (place : Int) : Option Shortest :=
  let (decimalScale, binaryScale) := i.scales place
  let below := i.value * binaryScale / decimalScale
  let rest := i.value * binaryScale % decimalScale
  match i.contains below place, i.contains (below + 1) place with
  | true, true =>
    if 2 * rest < decimalScale ∨ (2 * rest = decimalScale ∧ below % 2 = 0) then
      some ⟨below, place⟩
    else some ⟨below + 1, place⟩
  | true, false => some ⟨below, place⟩
  | false, true => some ⟨below + 1, place⟩
  | false, false => none

/-- The place of the value's first decimal digit, from the count of its binary digits and
one correction. -/
def firstPlace (i : Interval) : Int :=
  let guess := ((i.value.log2 : Int) + i.exponent) * 30103 / 100000
  let reaches (place : Int) : Bool :=
    let (decimalScale, binaryScale) := i.scales place
    decimalScale ≤ i.value * binaryScale
  if reaches (guess + 1) then guess + 1 else if reaches guess then guess else guess - 1

/-- Seventeen digits always tell two numbers apart, so the search ends before the last
alternative. -/
def shortest (i : Interval) : Shortest :=
  let first := i.firstPlace
  ((List.range 17).findSome? fun extra : Nat => i.nearest? (first - extra)).getD ⟨0, 0⟩

end Interval

/-- Moves zeros at the end of the digits into the exponent. The first argument bounds their
number. -/
def Shortest.trimmed : Nat → Shortest → Shortest
  | 0, number => number
  | bound + 1, number =>
    if number.digits ≠ 0 ∧ number.digits % 10 = 0 then
      Shortest.trimmed bound ⟨number.digits / 10, number.exponent + 1⟩
    else number

/-- The shortest decimal for a number given by a mantissa and an exponent, without zeros at
its end. -/
def shortest (mantissa : Nat) (exponent : Int) : Shortest :=
  if mantissa = 0 then ⟨0, 0⟩ else (interval mantissa exponent).shortest.trimmed 17

/-- The least power of ten, counted by the first digit, that is written with a point and not
with an exponent. -/
def leastPlainPlace : Int := -5

/-- The first power of ten from which numbers are written with an exponent. -/
def firstScientificPlace : Int := 21

/-- Decimal digits with a point before the last `places` of them, and zeros in front if there
are not enough. -/
def pointed (digits : List Char) (places : Nat) : List Char :=
  let padded := List.replicate (places + 1 - digits.length) '0' ++ digits
  padded.take (padded.length - places) ++ '.' :: padded.drop (padded.length - places)

/-- Scientific notation: one digit, the others after a point, and an exponent that always
has a sign. -/
def scientific (digits : List Char) (place : Int) : List Char :=
  let fraction :=
    match digits.drop 1 with
    | [] => []
    | rest => '.' :: rest
  let sign := if place < 0 then '-' else '+'
  digits.take 1 ++ fraction ++ 'e' :: sign :: Nat.toDigits 10 place.natAbs

/-- The text of a decimal number: whole numbers without a point, small fractions with one,
and the rest with an exponent. -/
def Shortest.text (number : Shortest) : List Char :=
  let digits := Nat.toDigits 10 number.digits
  let place := number.exponent + digits.length - 1
  if place < leastPlainPlace ∨ firstScientificPlace ≤ place then scientific digits place
  else if number.exponent < 0 then pointed digits (-number.exponent).toNat
  else digits ++ List.replicate number.exponent.toNat '0'

/-- The text of a number. Zero is written without its sign. -/
def text : Double → String
  | .finite negative mantissa exponent =>
    let digits := (shortest mantissa exponent).text
    String.ofList (if negative && mantissa != 0 then '-' :: digits else digits)
  | .infinite negative => if negative then "-inf" else "inf"

end RecordQuery.Double
