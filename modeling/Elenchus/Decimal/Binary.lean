/-!
# The exact value of a floating-point number

A finite floating-point number is a natural number times a power of two, with a sign.
`Binary.ofFloat` reads the three off the 64 bits, so that whatever is written about a number can be
computed in exact arithmetic from then on.
-/

namespace Elenchus.Decimal

/-- A finite number `±mantissa · 2 ^ exponent`. -/
structure Binary where
  negative : Bool
  mantissa : Nat
  exponent : Int
deriving DecidableEq, Repr

/-- What the bits of a floating-point number stand for. -/
inductive Value where
  | nan
  | infinite (negative : Bool)
  | finite (number : Binary)
deriving DecidableEq, Repr

/-- The sign bit, the eleven bits of the exponent and the 52 bits of the fraction.  The exponent 0
marks the numbers without a leading one, the exponent 2047 those that are not finite. -/
def Value.ofBits (bits : Nat) : Value :=
  let negative := bits >>> 63 == 1
  let exponent : Nat := (bits >>> 52) % 0x800
  let fraction := bits % 0x10000000000000
  if exponent = 2047 then
    if fraction = 0 then .infinite negative else .nan
  else if exponent = 0 then .finite ⟨negative, fraction, -1074⟩
  else .finite ⟨negative, 0x10000000000000 + fraction, exponent - 1075⟩

/-- The exact value of a floating-point number. -/
def Value.ofFloat (x : Float) : Value := .ofBits x.toBits.toNat

namespace Binary

/-- The numerator of the magnitude, as a quotient of two natural numbers. -/
def numerator (x : Binary) : Nat := x.mantissa <<< x.exponent.toNat

/-- The denominator of the magnitude, a power of two. -/
def denominator (x : Binary) : Nat := 1 <<< (-x.exponent).toNat

end Binary

def digitText (n : Nat) : String := toString n

end Elenchus.Decimal
