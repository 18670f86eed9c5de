import Elenchus.Datum
import Elenchus.Json.Draft

/-!
# The values of JSON numbers

A number without point and exponent is an integer when it fits in 64 bits; the zero with a sign is
not an integer.  Every other number is a floating-point number, and is rounded twice: its first
digits, as many as fit in 64 bits, are read as an integer and rounded; that is multiplied or divided
by a power of ten and rounded again.  A number whose value is past the largest floating-point number
is no value at all.
-/

namespace Elenchus.Json

/-- An integer built up digit by digit while it stays below 2^64: the integer, and the digits that
did not go in. -/
def absorb (n : Nat) : List Char → Nat × List Char
  | [] => (n, [])
  | c :: rest =>
    let next := 10 * n + (c.toNat - '0'.toNat)
    if fitsUnsigned next then absorb next rest else (n, c :: rest)

def powerOfTen (n : Nat) : Float := Float.ofScientific 1 false n

/-- A floating-point number times a power of ten, if the product is finite.  A power too small to be
written is taken in two steps. -/
def scaled? (x : Float) (exponent : Int) : Option Float :=
  let size := exponent.natAbs
  if 0 ≤ exponent then
    if x == 0 then some x
    else if 308 < size then none
    else
      let product := x * powerOfTen size
      if product.isInf then none else some product
  else if size ≤ 308 then some (x / powerOfTen size)
  else if size ≤ 616 then some (x / powerOfTen 308 / powerOfTen (size - 308))
  else some 0

namespace Numeral

/-- The integer that the numeral writes, if it writes one. -/
def int? (n : Numeral) : Option Int :=
  if n.fraction = none ∧ n.exponent = none then
    let magnitude := digitsValue n.whole
    if n.negative then
      if 0 < magnitude ∧ fitsSigned (-magnitude) then some (-magnitude) else none
    else if fitsUnsigned magnitude then some magnitude
    else none
  else none

/-- The floating-point number that the numeral stands for, unless it is out of range. -/
def float? (n : Numeral) : Option Float :=
  let (whole, beyond) := absorb 0 n.whole
  let fraction := n.fraction.getD []
  let (significand, unused) := absorb whole fraction
  let exponent := n.exponent.getD 0 + beyond.length - (fraction.length - unused.length : Nat)
  (scaled? (Float.ofNat significand) exponent).map fun x => if n.negative then -x else x

/-- The value of the numeral, unless it is out of range. -/
def datum? (n : Numeral) : Option Datum :=
  match n.int? with
  | some i => some (.int i)
  | none => n.float?.map .float

end Numeral

mutual

/-- The datum of a tree, if the tree is whole and all its numbers and quoted texts have a value. -/
def Draft.datum? : Draft → Option Datum
  | .null => some .null
  | .bool b => some (.bool b)
  | .number n => n.datum?
  | .text s => s.map .text
  | .list items finished => if finished then (itemData? items).map .list else none
  | .record fields finished => if finished then (fieldData? fields).map .record else none
  | .broken => none

/-- The data of the items of a list. -/
def itemData? : List Draft → Option (List Datum)
  | [] => some []
  | item :: items => do return (← item.datum?) :: (← itemData? items)

/-- The data of the fields of a record. -/
def fieldData? : List (Quoted × Draft) → Option (List (String × Datum))
  | [] => some []
  | (name, value) :: fields => do return (← name, ← value.datum?) :: (← fieldData? fields)

end

end Elenchus.Json

/-- The datum that a JSON text stands for, if it is one. -/
def Elenchus.Datum.ofJson? (text : String) : Option Datum :=
  match Json.Draft.ofText text with
  | (draft, true) => draft.datum?
  | (_, false) => none
