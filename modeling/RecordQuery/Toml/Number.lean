import RecordQuery.Number.Decimal
import RecordQuery.Toml.Table
import RecordQuery.Toml.Text

namespace RecordQuery.Toml

/-- The rest of a run of digits, in which single underscores may stand between digits. The
underscores are dropped. -/
def moreDigits (isDigit : Char → Bool) : List Char → List Char × List Char
  | '_' :: c :: rest =>
    if isDigit c then before c (moreDigits isDigit rest) else ([], '_' :: c :: rest)
  | c :: rest => if isDigit c then before c (moreDigits isDigit rest) else ([], c :: rest)
  | [] => ([], [])

/-- Reads a run of at least one digit. -/
def readDigits (isDigit : Char → Bool) : List Char → Option (List Char × List Char)
  | c :: rest => if isDigit c then some (before c (moreDigits isDigit rest)) else none
  | [] => none

/-- Reads the digits before a point. Only a lone zero begins with a zero. -/
def readWhole : List Char → Option (List Char × List Char)
  | '0' :: rest => some (['0'], rest)
  | text => readDigits Char.isDigit text

/-- Reads a sign that may be missing, and keeps it. -/
def optionalSign : List Char → List Char × List Char
  | '+' :: rest => (['+'], rest)
  | '-' :: rest => (['-'], rest)
  | text => ([], text)

def readExponent : List Char → Option (List Char × List Char)
  | mark :: rest =>
    if mark = 'e' ∨ mark = 'E' then do
      let (sign, rest) := optionalSign rest
      let (digits, rest) ← readDigits Char.isDigit rest
      return (mark :: sign ++ digits, rest)
    else none
  | [] => none

/-- Reads what makes a number a fraction: a point with digits, an exponent, or both. -/
def readFractionPart : List Char → Option (List Char × List Char)
  | '.' :: rest => do
    let (digits, rest) ← readDigits Char.isDigit rest
    match readExponent rest with
    | some (exponent, rest) => return ('.' :: digits ++ exponent, rest)
    | none => return ('.' :: digits, rest)
  | text => readExponent text

/-- Reads a fraction. One that is too large for the format is refused, unless it is negative. -/
def readFraction (text : List Char) : Option (Value × List Char) := do
  let (sign, rest) := optionalSign text
  match rest with
  | 'i' :: 'n' :: 'f' :: rest => return (.fraction (some (.infinite (sign == ['-']))), rest)
  | 'n' :: 'a' :: 'n' :: rest => return (.fraction none, rest)
  | _ =>
    let (whole, rest) ← readWhole rest
    let (fraction, rest) ← readFractionPart rest
    let value ← Double.ofText? (sign ++ whole ++ fraction)
    if value = .infinite false then none else return (.fraction (some value), rest)

def leastInteger : Int := Int64.minValue.toInt

def greatestInteger : Int := Int64.maxValue.toInt

def boundedInteger (value : Int) : Option Value :=
  if leastInteger ≤ value ∧ value ≤ greatestInteger then some (.integer value) else none

/-- The number that digits denote in a base. -/
def ofHexDigits (base : Nat) (digits : List Char) : Nat :=
  digits.foldl (fun value c => base * value + (hexDigit? c).getD 0) 0

/-- Reads an integer in a base other than ten, behind its prefix. -/
def readBased (base : Nat) (text : List Char) : Option (Value × List Char) := do
  let (digits, rest) ← readDigits (fun c => (hexDigit? c).any (· < base)) text
  return (← boundedInteger (ofHexDigits base digits), rest)

def readInteger : List Char → Option (Value × List Char)
  | '0' :: 'x' :: rest => readBased 16 rest
  | '0' :: 'o' :: rest => readBased 8 rest
  | '0' :: 'b' :: rest => readBased 2 rest
  | text => do
    let (sign, rest) := optionalSign text
    let (digits, rest) ← readWhole rest
    let magnitude : Int := Decimal.ofDigits digits
    return (← boundedInteger (if sign = ['-'] then -magnitude else magnitude), rest)

end RecordQuery.Toml
