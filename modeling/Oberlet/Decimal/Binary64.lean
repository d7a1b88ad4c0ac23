/-!
# Real numbers in 64 bits

A decimal is read as the nearest number; of two equally near ones the even one is taken. All
arithmetic is on natural numbers.
-/

namespace Oberlet

/-- A finite number `m * 2 ^ q` with `m < 2 ^ 53` and `-1074 ≤ q`, kept as its 64-bit pattern. -/
structure Binary64 where
  bits : UInt64
deriving DecidableEq, Repr

namespace Decimal

def twoTo (n : Nat) : Nat := Nat.pow 2 n

def tenTo (n : Nat) : Nat := Nat.pow 10 n

/-- A quotient, rounded to the nearest number and half to even. -/
def roundDiv (num den : Nat) : Nat :=
  let quotient := num / den
  let twice := 2 * (num % den)
  if twice < den then quotient
  else if den < twice then quotient + 1
  else if quotient % 2 == 0 then quotient else quotient + 1

/-- The value of decimal digits. -/
def ofDigits (digits : List Char) : Nat :=
  digits.foldl (fun n c => 10 * n + (c.toNat - '0'.toNat)) 0

def digitCount (n : Nat) : Nat := if n == 0 then 0 else (Nat.toDigits 10 n).length

end Decimal

namespace Binary64

open Decimal (twoTo tenTo)

def zero : Binary64 := ⟨0⟩

/-- The bit pattern of infinity; the patterns of the finite numbers lie below it. -/
def infinityBits : Nat := 0x7FF0000000000000

/-- The number nearest to a positive quotient, or `none` when that is infinity. -/
def ofQuotient? (num den : Nat) : Option Binary64 :=
  let estimate : Int := (num.log2 : Int) - (den.log2 : Int)
  let below :=
    if 0 ≤ estimate then num < den * twoTo estimate.toNat else num * twoTo (-estimate).toNat < den
  let magnitude := if below then estimate - 1 else estimate
  let q := max (magnitude - 52) (-1074)
  let m :=
    if 0 ≤ q then Decimal.roundDiv num (den * twoTo q.toNat)
    else Decimal.roundDiv (num * twoTo (-q).toNat) den
  let bits := (q + 1074).toNat * twoTo 52 + m
  if bits < infinityBits then some ⟨bits.toUInt64⟩ else none

/-- The number nearest to `m * 10 ^ e`, or `none` when that is infinity. Beyond the range of the
type the answer does not need the power itself. -/
def ofDecimal? (m : Nat) (e : Int) : Option Binary64 :=
  let magnitude := (Decimal.digitCount m : Int) + e
  if m == 0 || magnitude < -330 then some zero
  else if 310 < magnitude then none
  else if 0 ≤ e then ofQuotient? (m * tenTo e.toNat) 1
  else ofQuotient? m (tenTo (-e).toNat)

def exponentField (x : Binary64) : Nat := x.bits.toNat / twoTo 52 % twoTo 11

/-- The factor `m` of a number. -/
def significand (x : Binary64) : Nat :=
  let fraction := x.bits.toNat % twoTo 52
  if x.exponentField == 0 then fraction else twoTo 52 + fraction

/-- The exponent `q` of a number. -/
def exponent (x : Binary64) : Int :=
  if x.exponentField == 0 then -1074 else (x.exponentField : Int) - 1075

/-- The number that a literal stands for. -/
def ofLiteral? (text : List Char) : Option Binary64 :=
  let whole := text.takeWhile Char.isDigit
  let behindPoint := (text.dropWhile Char.isDigit).drop 1
  let fraction := behindPoint.takeWhile Char.isDigit
  let exponent : Int := match behindPoint.dropWhile Char.isDigit with
    | _ :: '-' :: digits => -(Decimal.ofDigits digits : Int)
    | _ :: '+' :: digits => Decimal.ofDigits digits
    | _ :: digits => Decimal.ofDigits digits
    | [] => 0
  ofDecimal? (Decimal.ofDigits (whole ++ fraction)) (exponent - fraction.length)

end Binary64

end Oberlet
