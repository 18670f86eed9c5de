import Elenchus.Datum
import Elenchus.Decimal.Shortest
import Elenchus.Json.Text

/-!
# Writing TOML

A record of records is written as a document with one table for each record, one key a line and an
empty line between tables.  An integer that does not fit in 64 bits with a sign cannot be written,
nor can anything below the second level that is not a single value.
-/

namespace Elenchus.Toml

/-- A character inside double quotes. -/
def escape (c : Char) : List Char := if c.toNat = 127 then "\\u007F".toList else Json.escape c

/-- A floating-point number in the fewest digits that read back, and with a point. -/
def floatText (x : Float) : String :=
  if x.isNaN then "nan"
  else
    let text := Decimal.plain x
    if x.isFinite && !text.contains '.' then text ++ ".0" else text

/-- The text of a single value. -/
def valueText? : Datum → Option String
  | .bool b => some (if b then "true" else "false")
  | .int n => if fitsSigned n then some (toString n) else none
  | .float x => some (floatText x)
  | .text s => some (String.ofList ('"' :: s.toList.flatMap escape ++ ['"']))
  | .date s => some s
  | .null | .list _ | .record _ => none

def line? (key : String) (value : Datum) : Option String := do
  return key ++ " = " ++ (← valueText? value) ++ "\n"

def tableText? : String × Datum → Option String
  | (name, .record fields) => do
    let lines ← fields.mapM fun (key, value) => line? key value
    return "[" ++ name ++ "]\n" ++ "".intercalate lines
  | _ => none

end Elenchus.Toml

/-- The TOML document of a record of records, if it has one.  Names are written as they are. -/
def Elenchus.Datum.toToml? : Datum → Option String
  | .record fields => do return "\n".intercalate (← fields.mapM Toml.tableText?)
  | _ => none
