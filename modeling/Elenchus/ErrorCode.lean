/-!
# Error codes

Every error of the library is a cause, a constructor of its own type.  What all of them share is a
code: the part of the program the error comes from, a number that no other error has, and a stable
name.  The thousands digit of the number tells the domain.
-/

namespace Elenchus

/-- The parts of the program that errors come from. -/
inductive ErrorDomain where
  | formula
  | input
  | engine
deriving DecidableEq, Repr

def ErrorDomain.name : ErrorDomain → String
  | .formula => "formula"
  | .input => "input"
  | .engine => "engine"

/-- The identity of a kind of error. -/
structure ErrorCode where
  domain : ErrorDomain
  /-- Unique over all domains. -/
  number : Nat
  /-- A stable symbolic name. -/
  name : String
deriving DecidableEq, Repr

/-- The number in at least four digits. -/
def ErrorCode.digits (code : ErrorCode) : String :=
  let text := toString code.number
  String.ofList (List.replicate (4 - text.length) '0') ++ text

end Elenchus
