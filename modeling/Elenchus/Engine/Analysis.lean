import Elenchus.Derivation.Builder
import Elenchus.Derivation.Checker
import Elenchus.Engine.Config
import Elenchus.Report.Basic

/-!
# The analysis of an argument

An analysis has two halves, each under a budget of its own: what the argument states is searched for
contradictions, and its graph is searched for fallacies and biases.  A half that runs out of its
budget leaves out what it has not done, says so in a warning, and the report is marked as degraded.

A contradiction is reported only with a derivation that has been checked.
-/

namespace Elenchus

/-- What the search for contradictions adds to a report. -/
structure LogicalAnalysis where
  satisfiability : Satisfiability
  contradictions : List Contradiction
  degraded : Bool
  warnings : List Warning

/-- The warning that a part of the search for contradictions was stopped. -/
def Warning.searchStopped (part : String) (reason : Exhaustion) : Warning :=
  match reason with
  | .cancelled => .engine .cancelled
  | reason => .engine (.solverBudget (part ++ " stopped: " ++ reason.message))

namespace Argument

/-- The identifiers of the propositions at some positions. -/
def idsAt (arg : Argument) (members : List Nat) : List PropositionId :=
  (members.filterMap (arg.propositions[·]?)).map (·.id)

/-- How grave a contradiction with the given core is: a small core weighs, and so does a member that
is put forward as certain. -/
def severityOf (arg : Argument) (core : List Nat) : Severity :=
  let certain := (core.filterMap (arg.propositions[·]?)).any (·.confidence.isCertain)
  if core.length ≤ 3 then if certain then .critical else .major
  else if certain then .major
  else .minor

/-- What a contradiction means, in words. -/
def explanationOf (arg : Argument) (core : List Nat) : String :=
  let quoted := (core.filterMap (arg.propositions[·]?)).map fun p => "\"" ++ p.displayText ++ "\""
  "Logical inconsistency among " ++ toString core.length ++ " propositions: "
    ++ ", ".intercalate quoted ++ ". These statements cannot all be true simultaneously."

/-- The warnings about expressions that could not be used. -/
def failureWarnings (arg : Argument) (failures : List (Nat × FormulaError)) : List Warning :=
  failures.filterMap fun (position, error) => do
    let p ← arg.propositions[position]?
    return .input (.proposition p.id) (.parseFailure error)

end Argument

namespace Encoding

/-- The propositions of a core, and those that speak of a variable that the core speaks of. -/
def involved (e : Encoding) (core : List Nat) : List Nat :=
  let spoken := e.variablesOf core
  e.members.filter fun i => i ∈ core || (e.variablesOf [i]).any (· ∈ spoken)

/-- A derivation from a core, if there is one and it holds. -/
def derive (e : Encoding) (arg : Argument) (core : List Nat) (budget : Budget) :
    Except DerivationError Derivation × Budget :=
  match Derivation.construct e arg core budget with
  | (.error error, budget) => (.error error, budget)
  | (.ok d, budget) =>
    match d.check with
    | .ok _ => (.ok d, budget)
    | .error error => (.error error, budget)

/-- The contradictions of some cores, the next one having the given number, and the errors for those
that could not be derived. -/
def contradictionsOf (e : Encoding) (arg : Argument) (number : Nat) (budget : Budget) :
    List (List Nat) → List Contradiction × List DerivationError
  | [] => ([], [])
  | core :: cores =>
    match e.derive arg core budget with
    | (.error error, budget) =>
      let (contradictions, errors) := e.contradictionsOf arg number budget cores
      (contradictions, error :: errors)
    | (.ok derivation, budget) =>
      let (contradictions, errors) := e.contradictionsOf arg (number + 1) budget cores
      let contradiction : Contradiction :=
        { number
          core := arg.idsAt core
          involved := arg.idsAt (e.involved core)
          severity := arg.severityOf core
          derivation
          table := e.table
          explanation := arg.explanationOf core }
      (contradiction :: contradictions, errors)

end Encoding

/-- The warning about a derivation that was stopped; the other errors have none. -/
def DerivationError.warning? : DerivationError → Option Warning
  | .exhausted reason => some (.searchStopped "proof construction" reason)
  | .satisfiable | .replay _ | .invalidLine .. => none

/-- The logical half of an analysis. -/
def Argument.analyzeLogic (arg : Argument) (config : EngineConfig) (budget : Budget) :
    LogicalAnalysis :=
  let e := arg.encode config.encoding
  let (search, budget) := e.findContradictions budget config.search.maxContradictions
  let stopped := search.exhausted.toList.map (Warning.searchStopped "contradiction search")
  let (contradictions, errors) := e.contradictionsOf arg 1 budget search.cores
  { satisfiability := search.satisfiability
    contradictions
    degraded := search.exhausted.isSome || !errors.isEmpty
    warnings := arg.failureWarnings e.failures ++ stopped
      ++ errors.filterMap DerivationError.warning? }

namespace EngineConfig

/-- The report on an argument, with a budget for each half; the warnings from its validation come
first in it. -/
def analyzeWithin (c : EngineConfig) (logicBudget graphBudget : Budget) (arg : Argument)
    (warnings : List Warning) : Report :=
  if arg.size = 0 then .empty warnings
  else
    let logic := arg.analyzeLogic c logicBudget
    let graph := arg.graph
    let structural := graph.analyze c.graph graphBudget
    { satisfiability := logic.satisfiability
      contradictions := logic.contradictions
      fallacies := structural.fallacies
      biases := structural.biases
      annotations := graph.annotate structural.centrality
        (structural.loadBearing[·]?.getD false) (logic.contradictions.map (·.core))
      dependencyOrder := structural.dependencyOrder
      degraded := logic.degraded || structural.degraded
      warnings := warnings ++ logic.warnings ++ structural.warnings }

/-- The budget of each half of an analysis, which may have been cancelled beforehand. -/
def budget (c : EngineConfig) (cancelled : Bool) : Budget :=
  ⟨c.search.maxSteps, 0, false, cancelled⟩

/-- The report on an argument that is validated already. -/
def analyzeArgument (c : EngineConfig) (cancelled : Bool) (arg : Argument)
    (warnings : List Warning) : Report :=
  c.analyzeWithin (c.budget cancelled) (c.budget cancelled) arg warnings

def analyze (c : EngineConfig) (cancelled : Bool) (request : Request) : Report :=
  let (arg, warnings) := request.validate
  c.analyzeArgument cancelled arg warnings

end EngineConfig

end Elenchus
