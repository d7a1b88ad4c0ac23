import Oberlet.Decimal.Binary64

/-!
# Decimals that denote a real number

A real number is written with the fewest digits that read back as the same number, and of the
decimals with that many digits the nearest one is taken.
-/

namespace Oberlet

/-- The decimal `d.ddd * 10 ^ exponent`, where the digits `dddd` are those of `digits`. -/
structure Decimal.Scientific where
  digits : Nat
  exponent : Int
deriving DecidableEq, Repr

namespace Decimal

/-- Takes zeros from the end of a number. -/
def stripZeros : (count : Nat) → Nat → Nat
  | 0, n => n
  | count + 1, n => if n != 0 && n % 10 == 0 then stripZeros count (n / 10) else n

/-- The exponent of the first digit of a quotient. -/
def magnitude (num den : Nat) : Int :=
  if den ≤ num then (digitCount (num / den) : Int) - 1
  else
    let count := digitCount (den / num)
    if den ≤ num * tenTo (count - 1) then 1 - (count : Int) else -(count : Int)

/-- A quotient in units of a power of ten. -/
def scaled (num den : Nat) (power : Int) : Nat × Nat :=
  if 0 ≤ power then (num, den * tenTo power.toNat) else (num * tenTo (-power).toNat, den)

namespace Scientific

/-- A number of grid steps as a decimal. The first of `count` digits of the grid has the given
exponent. -/
def ofSteps (steps count : Nat) (exponent : Int) : Scientific :=
  ⟨stripZeros count steps, exponent + (digitCount steps : Int) - count⟩

def sameValue (a b : Scientific) : Bool :=
  stripZeros (digitCount a.digits) a.digits == stripZeros (digitCount b.digits) b.digits
    && a.exponent == b.exponent

end Scientific

end Decimal

namespace Binary64

open Decimal (twoTo)

/-- The number in quarters of its last place, and the quotient that one quarter is. -/
def quarters (x : Binary64) : Nat × Nat × Nat :=
  let unit := x.exponent - 2
  if 0 ≤ unit then (x.significand * 4, twoTo unit.toNat, 1)
  else (x.significand * 4, 1, twoTo (-unit).toNat)

/-- The distance to the lower end of the interval of reals that round to the number, in quarters
of its last place. Below a power of two the numbers lie closer together. -/
def lowerGap (x : Binary64) : Nat :=
  if x.significand == twoTo 52 && 1 < x.exponentField then 1 else 2

/-- The decimal with `count` digits that is nearest to the number, if it reads back as it. Only the
neighbours of the number on the grid of such decimals can. -/
def nearest? (x : Binary64) (magnitude : Int) (count : Nat) : Option Nat :=
  let (quarters, num, den) := x.quarters
  let (scaledNum, scaledDen) := Decimal.scaled num den (magnitude - (count : Int) + 1)
  let value := quarters * scaledNum
  let low := (quarters - x.lowerGap) * scaledNum
  let high := (quarters + 2) * scaledNum
  let inside (steps : Nat) : Bool :=
    let point := steps * scaledDen
    if x.significand % 2 == 0 then low ≤ point && point ≤ high else low < point && point < high
  let below := value / scaledDen
  let above := below + 1
  match inside below, inside above with
  | true, true =>
    if value - below * scaledDen ≤ above * scaledDen - value then some below else some above
  | true, false => some below
  | false, true => some above
  | false, false => none

/-- The first number of digits, from `count` on, for which a decimal reads back. -/
def shortestFrom (x : Binary64) (magnitude : Int) : (tries count : Nat) → Decimal.Scientific
  | 0, _ => ⟨0, 0⟩
  | tries + 1, count =>
    match x.nearest? magnitude count with
    | some steps => .ofSteps steps count magnitude
    | none => shortestFrom x magnitude tries (count + 1)

def magnitude (x : Binary64) : Int :=
  let (quarters, num, den) := x.quarters
  Decimal.magnitude (quarters * num) den

/-- The shortest decimal that reads back as a positive number. Seventeen digits always do. -/
def shortest (x : Binary64) : Decimal.Scientific :=
  if x.significand == 0 then ⟨0, 0⟩ else x.shortestFrom x.magnitude 17 1

/-- The decimal with a number of digits that is nearest. -/
def rounded (x : Binary64) (count : Nat) : Decimal.Scientific :=
  if x.significand == 0 then ⟨0, 0⟩ else
    let (quarters, num, den) := x.quarters
    let magnitude := x.magnitude
    let (scaledNum, scaledDen) :=
      Decimal.scaled (quarters * num) den (magnitude - (count : Int) + 1)
    .ofSteps (Decimal.roundDiv scaledNum scaledDen) count magnitude

end Binary64

end Oberlet
