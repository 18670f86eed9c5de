import Elenchus.Annotation
import Elenchus.Contradiction.Search
import Elenchus.Derivation.Basic
import Elenchus.Structure

/-!
# Reports

A report is all that is said about one argument: whether it can be true as a whole, its
contradictions, each with a derivation, its fallacies and biases, an annotation for each
proposition, the order of dependencies, and what went wrong on the way.
-/

namespace Elenchus

/-- How grave a contradiction is. -/
inductive Severity where
  | minor
  | major
  | critical
deriving DecidableEq, Repr

def Severity.name : Severity → String
  | .minor => "minor"
  | .major => "major"
  | .critical => "critical"

/-- Propositions that contradict each other, none of which can be left out. -/
structure Contradiction where
  /-- The number among the contradictions of a report. -/
  number : Nat
  core : List PropositionId
  /-- The propositions that say something about what the core speaks of. -/
  involved : List PropositionId
  severity : Severity
  /-- A derivation of falsity from the core. -/
  derivation : Derivation
  table : VarTable
  explanation : String

def Contradiction.id (c : Contradiction) : String := "contradiction-" ++ toString c.number

structure Report where
  satisfiability : Satisfiability
  contradictions : List Contradiction
  fallacies : List Fallacy
  biases : List Bias
  annotations : List Annotation
  dependencyOrder : List PropositionId
  degraded : Bool
  warnings : List Warning

namespace Report

/-- The report on an argument without propositions. -/
def empty (warnings : List Warning) : Report where
  satisfiability := .sat
  contradictions := []
  fallacies := []
  biases := []
  annotations := []
  dependencyOrder := []
  degraded := false
  warnings

def fallaciesOf (r : Report) (pattern : FallacyPattern) : List Fallacy :=
  r.fallacies.filter (·.pattern = pattern)

def biasesOf (r : Report) (pattern : BiasPattern) : List Bias :=
  r.biases.filter (·.pattern = pattern)

end Report

end Elenchus
