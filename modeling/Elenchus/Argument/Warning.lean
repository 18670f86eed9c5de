import Elenchus.Argument.Relationship
import Elenchus.Engine.Error

/-!
# Warnings

Nothing that goes wrong during an analysis makes it fail: it is recorded as a warning, which says
what it is about and what its cause is.
-/

namespace Elenchus

/-- What a warning is about. -/
inductive WarningSubject where
  | proposition (id : PropositionId)
  | relationship (id : RelationshipId)
  /-- A proposition record without identifier, by its position. -/
  | propositionAt (position : Nat)
  /-- A relationship record without identifier, by its position. -/
  | relationshipAt (position : Nat)
  | request
deriving DecidableEq, Repr

/-- What went wrong. -/
inductive WarningCause where
  | input (error : InputError)
  | engine (error : EngineError)
deriving DecidableEq, Repr

/-- Something that went wrong, and what it concerns. -/
structure Warning where
  subject : WarningSubject
  cause : WarningCause
deriving DecidableEq, Repr

namespace Warning

def input (subject : WarningSubject) (error : InputError) : Warning := ⟨subject, .input error⟩

def engine (error : EngineError) : Warning := ⟨.request, .engine error⟩

/-- The kind of a warning.  What the engine did not finish counts as the search's, unless it was the
search for cycles or a request to stop. -/
def kind (w : Warning) : String :=
  match w.cause with
  | .input (.parseFailure _) => "parse_failure"
  | .input (.danglingReference _) => "dangling_reference"
  | .input (.duplicateId _) => "duplicate_id"
  | .input (.missingField _) => "missing_field"
  | .input (.unknownChoice ..) => "unknown_variant"
  | .engine (.cycleBudget _) => "cycle_budget_exhausted"
  | .engine .cancelled => "cancelled"
  | .engine _ => "solver_timeout"

def code (w : Warning) : ErrorCode :=
  match w.cause with
  | .input error => error.code
  | .engine error => error.code

def message (w : Warning) : String :=
  match w.cause with
  | .input error => error.message
  | .engine error => error.message

/-- The text at the fault, if an expression could not be read and there is one. -/
def fragment? (w : Warning) : Option String :=
  match w.cause with
  | .input (.parseFailure cause) => cause.fragment?
  | _ => none

end Warning

end Elenchus
