import Elenchus.Argument.Error

/-!
# Propositions

A proposition is a statement that an argument makes, with what is known of its part in the argument.
It may carry a formal expression, which is kept as text.
-/

namespace Elenchus

/-- The part that a proposition plays. -/
inductive PropositionKind where
  | claim
  | evidence
  | assumption
  | constraint
  | risk
deriving DecidableEq, Repr

namespace PropositionKind

def name : PropositionKind → String
  | .claim => "claim"
  | .evidence => "evidence"
  | .assumption => "assumption"
  | .constraint => "constraint"
  | .risk => "risk"

def names : List (String × PropositionKind) :=
  [("claim", .claim), ("conclusion", .claim), ("evidence", .evidence), ("assumption", .assumption),
   ("premise", .assumption), ("constraint", .constraint), ("risk", .risk)]

def ofText (s : String) : Except InputError PropositionKind := chosen .propositionKind names s

end PropositionKind

/-- How sure its author is of a proposition. -/
inductive Confidence where
  | high
  | medium
  | low
  /-- Nothing was said, and the proposition is stated without reserve. -/
  | unstatedAsAbsolute
deriving DecidableEq, Repr

namespace Confidence

def name : Confidence → String
  | .high => "high"
  | .medium => "medium"
  | .low => "low"
  | .unstatedAsAbsolute => "unstated_as_absolute"

def names : List (String × Confidence) :=
  [("high", .high), ("medium", .medium), ("low", .low),
   ("unstated_as_absolute", .unstatedAsAbsolute), ("unstated-as-absolute", .unstatedAsAbsolute),
   ("absolute", .unstatedAsAbsolute)]

def ofText (s : String) : Except InputError Confidence := chosen .confidence names s

def isCertain : Confidence → Bool
  | .high | .unstatedAsAbsolute => true
  | .medium | .low => false

end Confidence

/-- A statement of an argument. -/
structure Proposition where
  id : PropositionId
  statement : String
  formalExpression : Option String
  kind : PropositionKind
  confidence : Confidence
  isImplicit : Bool
  isLoadBearing : Bool
deriving DecidableEq, Repr

/-- The text that stands for a proposition: its statement, or else its formal expression, or else
its identifier. -/
def Proposition.displayText (p : Proposition) : String :=
  if Text.isBlankText p.statement then p.formalExpression.getD p.id.text else p.statement

end Elenchus
