/-!
# Data

The tree of plain values that reports are written from and configurations are read from: the values
of a JSON text or of a TOML document.  A record keeps its fields in order.  Integers have no bounds
here; where a format has room for 64 bits only, its reader and its writer ask whether a number fits.
-/

namespace Elenchus

/-- A plain value. -/
inductive Datum where
  | null
  | bool (value : Bool)
  | int (value : Int)
  | float (value : Float)
  | text (value : String)
  /-- A date, a time, or both, as written. -/
  | date (written : String)
  | list (items : List Datum)
  | record (fields : List (String × Datum))
deriving Inhabited

/-- Whether an integer fits in 64 bits with a sign. -/
def fitsSigned (n : Int) : Bool := -0x8000000000000000 ≤ n && n < 0x8000000000000000

/-- Whether an integer fits in 64 bits without a sign. -/
def fitsUnsigned (n : Int) : Bool := 0 ≤ n && n < 0x10000000000000000

namespace Datum

def texts (items : List String) : Datum := .list (items.map .text)

def nat (n : Nat) : Datum := .int n

/-- A value that may be missing. -/
def ofOption {α : Type} (encode : α → Datum) : Option α → Datum
  | none => .null
  | some a => encode a

/-- The value of a field of a record, the first of that name. -/
def field? (name : String) : Datum → Option Datum
  | .record fields => fields.lookup name
  | _ => none

end Datum

end Elenchus
