import Oberlet.Decimal.Binary64
import Oberlet.Toml.Token

/-!
# Literals of a configuration file
-/

namespace Oberlet.Toml

/-! ## Numbers -/

/-- The integers have 64 bits. -/
def integerLimit : Int := 9223372036854775808

/-- Whether each underscore of a literal stands behind a digit, and none at its end. -/
def isSpaced (isDigit : Char → Bool) (behindDigit : Bool) : List Char → Bool
  | [] => true
  | c :: rest =>
    (c != '_' || (behindDigit && !rest.isEmpty)) && isSpaced isDigit (isDigit c) rest

def withoutSpaces (literal : List Char) : List Char := literal.filter (· != '_')

/-- The value of digits in a base. -/
def ofDigits (base : Nat) (digits : List Char) : Nat :=
  digits.foldl (fun n c => base * n + hexDigitValue c) 0

/-- The value of an integer without underscores. One without a sign that begins with a zero and
has more than two characters names its base. -/
def integerValue? : List Char → Option Int
  | '0' :: 'x' :: c :: rest => some (ofDigits 16 (c :: rest))
  | '0' :: 'o' :: c :: rest => some (ofDigits 8 (c :: rest))
  | '0' :: 'b' :: c :: rest => some (ofDigits 2 (c :: rest))
  | '0' :: _ :: _ :: _ => none
  | '-' :: digits => some (-(ofDigits 10 digits : Int))
  | '+' :: digits => some (ofDigits 10 digits)
  | digits => some (ofDigits 10 digits)

/-- The value of an integer, if it has one. -/
def integer? (literal : List Char) : Option Int := do
  let isDigit := if literal.take 2 == ['0', 'x'] then isHexDigit else Char.isDigit
  let value ← integerValue? (withoutSpaces literal)
  if isSpaced isDigit false literal && -integerLimit ≤ value && value < integerLimit then
    return value
  else none

/-- Whether a literal is that of a finite number: digits, possibly with a point and further digits
and with an exponent, and not so large that the nearest number in 64 bits is infinite. -/
def isFloat (literal : List Char) : Bool :=
  let digits (cs : List Char) : Bool := !cs.isEmpty && cs.all Char.isDigit
  let (_, magnitude) := sign (withoutSpaces literal)
  let mantissa := magnitude.takeWhile (· != 'e')
  let exponent := (magnitude.dropWhile (· != 'e'))
  let (mark, power) := sign exponent.tail
  let whole := mantissa.takeWhile (· != '.')
  let fraction := (mantissa.dropWhile (· != '.'))
  let scale : Int := if mark == ['-'] then -(ofDigits 10 power : Int) else ofDigits 10 power
  isSpaced Char.isDigit false literal
    && digits whole && (fraction.isEmpty || digits fraction.tail)
    && (exponent.isEmpty || digits power)
    && (Binary64.ofDecimal? (ofDigits 10 (whole ++ fraction.tail))
      (scale - fraction.tail.length)).isSome

/-! ## Dates and times -/

def daysIn (year month : Nat) : Nat :=
  if month == 2 then
    if year % 4 == 0 && (year % 100 != 0 || year % 400 == 0) then 29 else 28
  else if month ∈ [4, 6, 9, 11] then 30 else 31

/-- The number of two digits at a place. -/
def pairAt (place : Nat) (literal : List Char) : Nat := ofDigits 10 ((literal.drop place).take 2)

/-- Whether there is such a day. -/
def isDateValue (literal : List Char) : Bool :=
  let month := pairAt 5 literal
  let day := pairAt 8 literal
  1 ≤ month && month ≤ 12 && 1 ≤ day && day ≤ daysIn (ofDigits 10 (literal.take 4)) month

def isTimeValue (literal : List Char) : Bool :=
  pairAt 0 literal < 24 && pairAt 3 literal < 60 && pairAt 6 literal < 60

/-- Whether a time zone has an offset. A whole day and a whole hour are let through. -/
def isOffsetValue : List Char → Bool
  | _ :: c :: rest => pairAt 0 (c :: rest) ≤ 24 && pairAt 3 (c :: rest) ≤ 60
  | _ => true

end Oberlet.Toml
