import Elenchus.Argument.Id

/-!
# Fallacies

A fallacy is a defect in the shape of an argument.  There are four patterns; some of them carry what
they found beyond the propositions that are affected.  The fallacies of one pattern are numbered
from 1, and a fallacy is identified by its pattern and its number.
-/

namespace Elenchus

inductive FallacyPattern where
  | circular
  | hastyGeneralization
  | falseDilemma
  | loadBearing
deriving DecidableEq, Repr

namespace FallacyPattern

def name : FallacyPattern → String
  | .circular => "circular"
  | .hastyGeneralization => "hasty_generalization"
  | .falseDilemma => "false_dilemma"
  | .loadBearing => "load_bearing"

/-- The short name of a pattern, which identifiers are made of. -/
def slug : FallacyPattern → String
  | .circular => "circular"
  | .hastyGeneralization => "hasty"
  | .falseDilemma => "dilemma"
  | .loadBearing => "load-bearing"

def title : FallacyPattern → String
  | .circular => "Circular Reasoning (Petitio Principii)"
  | .hastyGeneralization => "Hasty Generalization"
  | .falseDilemma => "False Dilemma"
  | .loadBearing => "Load-Bearing Assumption"

end FallacyPattern

/-- What a fallacy rests on. -/
inductive FallacyFinding where
  /-- A cycle of reasons, closed by its first proposition. -/
  | circular (path : List PropositionId)
  | hastyGeneralization
  | falseDilemma
  /-- An assumption between other propositions: those that it connects, and its betweenness. -/
  | loadBearing (dependents : List PropositionId) (centrality : Float)

def FallacyFinding.pattern : FallacyFinding → FallacyPattern
  | .circular _ => .circular
  | .hastyGeneralization => .hastyGeneralization
  | .falseDilemma => .falseDilemma
  | .loadBearing .. => .loadBearing

/-- A defect in the shape of an argument. -/
structure Fallacy where
  finding : FallacyFinding
  /-- The number among the fallacies of the same pattern. -/
  number : Nat
  description : String
  affected : List PropositionId

namespace Fallacy

def pattern (f : Fallacy) : FallacyPattern := f.finding.pattern

def id (f : Fallacy) : String := "fallacy-" ++ f.pattern.slug ++ "-" ++ toString f.number

end Fallacy

end Elenchus
