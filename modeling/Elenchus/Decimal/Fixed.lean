import Elenchus.Decimal.Binary

/-!
# A fixed number of decimal places

A number is written with a given count of digits after the point: its exact value is rounded to that
many places, a half going to the even neighbour.  A number that rounds to zero has no sign.
-/

namespace Elenchus.Decimal

/-- The quotient of two natural numbers, rounded to the nearest integer, a half to the even one. -/
def roundedQuotient (numerator denominator : Nat) : Nat :=
  let quotient := numerator / denominator
  let remainder := numerator % denominator
  if 2 * remainder < denominator then quotient
  else if denominator < 2 * remainder then quotient + 1
  else if quotient % 2 = 0 then quotient
  else quotient + 1

/-- A natural number of units of the last place, written with the point before the last `places`
digits. -/
def pointed (places units : Nat) : String :=
  let digits := (digitText units).toList
  let padded := List.replicate (places + 1 - digits.length) '0' ++ digits
  let whole := padded.take (padded.length - places)
  let fraction := padded.drop (padded.length - places)
  String.ofList (if places = 0 then whole else whole ++ '.' :: fraction)

/-- A floating-point number with a fixed count of decimal places. -/
def fixed (places : Nat) (x : Float) : String :=
  match Value.ofFloat x with
  | .nan => "NaN"
  | .infinite negative => if negative then "-inf" else "inf"
  | .finite number =>
    let units := roundedQuotient (number.numerator * Nat.pow 10 places) number.denominator
    (if number.negative && units != 0 then "-" else "") ++ pointed places units

end Elenchus.Decimal
