import Elenchus.Decimal.Shortest

/-!
# The nearest floating-point number

A decimal is read as the floating-point number that is nearest to its exact value.  Decimals far
beyond the range of floating-point numbers are settled by their size alone, so that no power of ten
has to be computed for them.
-/

namespace Elenchus.Decimal

/-- The floating-point number nearest to a decimal. -/
def Scaled.nearest (d : Scaled) : Float :=
  let leading := d.exponent + digitCount d.digits
  if d.digits = 0 ∨ leading < -330 then 0
  else if 330 < leading then 1 / 0
  else .ofScientific d.digits (d.exponent < 0) d.exponent.natAbs

end Elenchus.Decimal
