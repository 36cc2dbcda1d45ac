namespace RecordQuery

/-- A binary64 number other than NaN: plus or minus `mantissa * 2 ^ exponent`, or an infinity.
Zero keeps its sign, which only printing a record shows. -/
inductive Double
  | finite (negative : Bool) (mantissa : Nat) (exponent : Int)
  | infinite (negative : Bool)
deriving DecidableEq

namespace Double

def precision : Nat := 53

/-- The exponent of the least positive number, which is a mantissa of one unit. -/
def leastExponent : Int := -1074

def greatestExponent : Int := 971

/-- The quotient rounded to the nearest whole number, an exact half to the even one. -/
def divideToEven (numerator denominator : Nat) : Nat :=
  let quotient := numerator / denominator
  let twice := 2 * (numerator % denominator)
  if denominator < twice || (twice == denominator && quotient % 2 == 1) then quotient + 1
  else quotient

/-- The greatest `k` with `2 ^ k * denominator ≤ numerator`, for positive arguments. Their
logarithms give it up to one. -/
def floorLog (numerator denominator : Nat) : Int :=
  let guess : Int := (numerator.log2 : Int) - denominator.log2
  if denominator * Nat.pow 2 guess.toNat ≤ numerator * Nat.pow 2 (-guess).toNat then guess
  else guess - 1

/-- The number nearest to a quotient of naturals. The mantissa gets as many digits as the
format has, fewer near zero, and a value beyond the greatest finite one is infinite. -/
def ofRatio (negative : Bool) (numerator denominator : Nat) : Double :=
  if numerator = 0 then .finite negative 0 leastExponent
  else
    let unit := max leastExponent (floorLog numerator denominator + 1 - precision)
    let mantissa :=
      divideToEven (numerator * Nat.pow 2 (-unit).toNat) (denominator * Nat.pow 2 unit.toNat)
    let (mantissa, unit) :=
      if mantissa = Nat.pow 2 precision then (Nat.pow 2 (precision - 1), unit + 1)
      else (mantissa, unit)
    if greatestExponent < unit then .infinite negative else .finite negative mantissa unit

def ofInt (value : Int) : Double :=
  ofRatio (value < 0) value.natAbs 1

/-- The mantissa with its sign, counted in units of `2 ^ base` where `base` is at most the
exponent. -/
def scaled (negative : Bool) (mantissa : Nat) (exponent base : Int) : Int :=
  let magnitude : Int := mantissa * Nat.pow 2 (exponent - base).toNat
  if negative then -magnitude else magnitude

/-- Compares two numbers exactly. The zeros are equal, and the infinities lie at the ends. -/
def compare : Double → Double → Ordering
  | .finite negative₁ mantissa₁ exponent₁, .finite negative₂ mantissa₂ exponent₂ =>
    let base := min exponent₁ exponent₂
    Ord.compare (scaled negative₁ mantissa₁ exponent₁ base)
      (scaled negative₂ mantissa₂ exponent₂ base)
  | .finite .., .infinite negative => if negative then .gt else .lt
  | .infinite negative, .finite .. => if negative then .lt else .gt
  | .infinite negative₁, .infinite negative₂ => Ord.compare negative₂ negative₁

end RecordQuery.Double
