namespace SimpleLR.Text

def numeralBound : Nat :=
  UInt64.size

def dropPlus : List Char → List Char
  | '+' :: digits => digits
  | digits => digits

/-- Reads one or more decimal digits, after an optional plus sign. -/
def readNat (s : List Char) : Option Nat :=
  let digits := dropPlus s
  if digits ≠ [] ∧ digits.all Char.isDigit then
    let n := Nat.ofDigitChars 10 digits 0
    if n < numeralBound then some n else none
  else none

end SimpleLR.Text
