import Misfit.Json.Token

/-!
# The value of a number

Only small natural numbers are ever asked for, but every number that is read has to be within the range
of double precision. The significand takes in digits as long as it fits a 64-bit word; digits of the
whole part that do not fit raise the exponent, and those of the fraction are dropped.
-/
namespace Misfit.Json.Numeral

/-- The largest significand. -/
def maxSignificand : Nat := Nat.pow 2 64 - 1

/-- The largest exponent that is read digit by digit. -/
def maxExponent : Nat := Nat.pow 2 31 - 1

/-- The number that digits make, the highest first. -/
def ofDigits (digits : List Nat) : Nat := digits.foldl (fun n d => n * 10 + d) 0

/-- Takes digits into a significand; answers it and the number of digits taken. -/
def takeIn (significand : Nat) : List Nat → Nat × Nat
  | [] => (significand, 0)
  | d :: rest =>
    if maxSignificand < significand * 10 + d then (significand, 0)
    else
      let (result, taken) := takeIn (significand * 10 + d) rest
      (result, taken + 1)

variable (n : Numeral)

/-- The number is written without fraction and exponent. -/
def isWhole : Bool := n.fraction.isEmpty && n.exponent.isNone

/-- Significand and exponent of the number. -/
def scaled : Nat × Int :=
  let (significand, taken) := takeIn 0 n.whole
  let skipped := n.whole.length - taken
  let (significand, places) := takeIn significand n.fraction
  (significand, skipped - places)

/-- A significand times a power of ten is beyond the largest finite number. -/
def exceedsRange (significand : Nat) (exponent : Int) : Bool :=
  significand ≠ 0 &&
    (308 < exponent ||
      (0 ≤ exponent && Binary64.overflowBound ≤
        Binary64.round significand * Binary64.round (Nat.pow 10 exponent.toNat)))

/-- The number is out of range. -/
def isTooLarge : Bool :=
  let (significand, base) := n.scaled
  match n.exponent with
  | none =>
    if n.fraction.isEmpty && base = 0 then false else exceedsRange significand base
  | some (negative, digits) =>
    let exponent := ofDigits digits
    if maxExponent < exponent then !negative && significand ≠ 0
    else exceedsRange significand (if negative then base - exponent else base + exponent)

/-- The value of a number written as a natural number below `bound`. -/
def natBelow? (bound : Nat) : Option Nat :=
  if n.isWhole && !n.negative && ofDigits n.whole < bound then some (ofDigits n.whole) else none

end Misfit.Json.Numeral
