import Elenchus.Decimal.Binary

/-!
# The shortest decimal that reads back

A floating-point number is written with the fewest digits that still name it: of all decimals that
round to it, one with the fewest digits, and of those the nearest.  On an exact tie the larger is
taken.

The decimals that round to `m · 2 ^ e` lie between the two midpoints to its neighbours, the
midpoints themselves included when `m` is even.  For 1, 2, … 17 digits the number's two neighbours
on the grid of that many digits are tested against this interval; the first grid with a hit is the
coarsest.
-/

namespace Elenchus.Decimal

/-- A decimal `digits · 10 ^ exponent`. -/
structure Scaled where
  digits : Nat
  exponent : Int
deriving DecidableEq, Repr

/-- The count of decimal digits of a natural number; zero has one. -/
def digitCount (n : Nat) : Nat := (Nat.toDigits 10 n).length

/-- The exponent of the leading decimal digit of a positive fraction. -/
def leadingExponent (numerator denominator : Nat) : Int :=
  if denominator ≤ numerator then digitCount (numerator / denominator) - 1
  else -(digitCount ((denominator - 1) / numerator) : Int)

/-- Whether the decimal `digits · 10 ^ exponent` rounds to the given magnitude.  All sides are
multiplied up to natural numbers: the midpoints are two quarters of a unit away, or one quarter
below a power of two, whose lower neighbour is nearer. -/
def readsBack (x : Binary) (d : Scaled) : Bool :=
  let below := if x.mantissa = 0x10000000000000 ∧ -1074 < x.exponent then 1 else 2
  let unit := x.exponent - 2
  let scale (n : Nat) (two ten : Int) : Nat := (n <<< two.toNat) * Nat.pow 10 ten.toNat
  let low := scale (4 * x.mantissa - below) unit (-d.exponent)
  let high := scale (4 * x.mantissa + 2) unit (-d.exponent)
  let point := scale d.digits (-unit) d.exponent
  if x.mantissa % 2 = 0 then low ≤ point && point ≤ high else low < point && point < high

/-- The neighbours of a magnitude on the grid of multiples of `10 ^ exponent`, the nearer first, and
the larger first when both are as near. -/
def gridNeighbours (x : Binary) (exponent : Int) : List Scaled :=
  let numerator := x.numerator * Nat.pow 10 (-exponent).toNat
  let denominator := x.denominator * Nat.pow 10 exponent.toNat
  let lower := numerator / denominator
  if 2 * (numerator % denominator) < denominator then [⟨lower, exponent⟩, ⟨lower + 1, exponent⟩]
  else [⟨lower + 1, exponent⟩, ⟨lower, exponent⟩]

/-- The digits without trailing zeros, at most `fuel` of them taken off. -/
def Scaled.stripped (d : Scaled) : (fuel : Nat) → Scaled
  | 0 => d
  | fuel + 1 =>
    if d.digits % 10 = 0 then Scaled.stripped ⟨d.digits / 10, d.exponent + 1⟩ fuel else d

/-- The shortest decimal of a magnitude that is not zero; seventeen digits always suffice. -/
def shortest (x : Binary) : Scaled :=
  let leading := leadingExponent x.numerator x.denominator
  let found := (List.range 17).findSome? fun (more : Nat) =>
    (gridNeighbours x (leading - more)).find? (readsBack x)
  (found.getD ⟨x.numerator, 0⟩).stripped 17

/-- A decimal written out in full, with as many zeros as its exponent asks for. -/
def Scaled.plain (d : Scaled) : String :=
  let digits := (digitText d.digits).toList
  if 0 ≤ d.exponent then String.ofList (digits ++ List.replicate d.exponent.toNat '0')
  else
    let places := d.exponent.natAbs
    let padded := List.replicate (places + 1 - digits.length) '0' ++ digits
    let whole := padded.length - places
    String.ofList (padded.take whole ++ '.' :: padded.drop whole)

/-- A floating-point number in the fewest digits that read back, never with an exponent; an integral
value has no point. -/
def plain (x : Float) : String :=
  match Value.ofFloat x with
  | .nan => "NaN"
  | .infinite negative => if negative then "-inf" else "inf"
  | .finite number =>
    (if number.negative then "-" else "")
      ++ (if number.mantissa = 0 then "0" else (shortest number).plain)

end Elenchus.Decimal
