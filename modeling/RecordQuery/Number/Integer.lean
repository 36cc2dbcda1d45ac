namespace RecordQuery

/-- The digits of an integer, after a minus sign if it is negative. -/
def integerDigits (value : Int) : List Char :=
  let digits := Nat.toDigits 10 value.natAbs
  if value < 0 then '-' :: digits else digits

def integerText (value : Int) : String :=
  String.ofList (integerDigits value)

end RecordQuery
