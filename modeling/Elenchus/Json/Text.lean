import Elenchus.Datum
import Elenchus.Decimal.Shortest

/-!
# Writing JSON

A datum is written as JSON text in two layouts: on one line without any blanks, or with one item a
line and two blanks of indentation a level.  In a quoted text the quote, the backslash and the
control characters are escaped and nothing else.  Numbers that are not finite have no JSON text and
are written as `null`; a date is written as a text.
-/

namespace Elenchus.Json

/-- The four hexadecimal digits of a code unit. -/
def hexFour (n : Nat) : List Char :=
  let digits := Nat.toDigits 16 n
  List.replicate (4 - digits.length) '0' ++ digits

/-- A character inside quotes. -/
def escape (c : Char) : List Char :=
  if c = '"' then ['\\', '"']
  else if c = '\\' then ['\\', '\\']
  else if c = '\n' then ['\\', 'n']
  else if c = '\r' then ['\\', 'r']
  else if c = '\t' then ['\\', 't']
  else if c.toNat = 8 then ['\\', 'b']
  else if c.toNat = 12 then ['\\', 'f']
  else if c.toNat < 32 then '\\' :: 'u' :: hexFour c.toNat
  else [c]

def quoted (s : String) : String :=
  String.ofList ('"' :: s.toList.flatMap escape ++ ['"'])

/-- The layout of a decimal: positional with a point when the leading digit's exponent is between
-5 and 15, else one digit before the point and an exponent. -/
def decimalText (d : Decimal.Scaled) : String :=
  let leading := d.exponent + Decimal.digitCount d.digits - 1
  if -5 ≤ leading ∧ leading ≤ 15 then
    if 0 ≤ d.exponent then d.plain ++ ".0" else d.plain
  else
    match (Decimal.digitText d.digits).toList with
    | [] => ""
    | first :: more =>
      String.ofList (first :: if more = [] then [] else '.' :: more) ++ "e" ++ toString leading

/-- A floating-point number in the fewest digits that read back. -/
def floatText (x : Float) : String :=
  match Decimal.Value.ofFloat x with
  | .nan | .infinite _ => "null"
  | .finite number =>
    (if number.negative then "-" else "")
      ++ (if number.mantissa = 0 then "0.0" else decimalText (Decimal.shortest number))

/-- The start of a line at an indentation level. -/
def lineStart (level : Nat) : String := "\n" ++ String.ofList (List.replicate (2 * level) ' ')

/-- The blanks of a layout. -/
inductive Layout where
  /-- All on one line. -/
  | compact
  /-- One item a line. -/
  | indented
deriving DecidableEq, Repr

/-- What stands before an item at a level. -/
def Layout.break (layout : Layout) (level : Nat) : String :=
  match layout with
  | .compact => ""
  | .indented => lineStart level

/-- What stands between the name of a field and its value. -/
def Layout.colon : Layout → String
  | .compact => ":"
  | .indented => ": "

mutual

/-- A datum written behind the text `acc`. -/
def write (layout : Layout) (level : Nat) (acc : String) : Datum → String
  | .null => acc ++ "null"
  | .bool b => acc ++ (if b then "true" else "false")
  | .int n => acc ++ toString n
  | .float x => acc ++ floatText x
  | .text s | .date s => acc ++ quoted s
  | .list [] => acc ++ "[]"
  | .list (item :: items) =>
    let acc := write layout (level + 1) (acc ++ "[" ++ layout.break (level + 1)) item
    writeItems layout (level + 1) acc items ++ layout.break level ++ "]"
  | .record [] => acc ++ "\x7b\x7d"
  | .record ((name, value) :: fields) =>
    let acc := acc ++ "\x7b" ++ layout.break (level + 1) ++ quoted name ++ layout.colon
    let acc := write layout (level + 1) acc value
    writeFields layout (level + 1) acc fields ++ layout.break level ++ "\x7d"

def writeItems (layout : Layout) (level : Nat) (acc : String) : List Datum → String
  | [] => acc
  | item :: items =>
    writeItems layout level (write layout level (acc ++ "," ++ layout.break level) item) items

def writeFields (layout : Layout) (level : Nat) (acc : String) :
    List (String × Datum) → String
  | [] => acc
  | (name, value) :: fields =>
    let acc := acc ++ "," ++ layout.break level ++ quoted name ++ layout.colon
    writeFields layout level (write layout level acc value) fields

end

end Elenchus.Json

/-- The JSON text of a datum. -/
def Elenchus.Datum.toJson (layout : Json.Layout) (datum : Datum) : String :=
  Json.write layout 0 "" datum
