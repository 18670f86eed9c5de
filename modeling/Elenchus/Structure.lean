import Elenchus.Argument.Warning
import Elenchus.Bias.Rules
import Elenchus.Fallacy.Rules
import Elenchus.Graph.Cycle
import Elenchus.Graph.Order

/-!
# The structure of an argument

All that the graph of an argument shows: fallacies, biases, the betweenness of each proposition, the
assumptions that bear the load, and the order of dependencies.  What the budget does not allow is
left out, with a warning, and the analysis is marked as degraded: without the search for cycles
there is no circular reasoning, and without betweenness every proposition counts as lying between no
others.
-/

namespace Elenchus

/-- The bounds of the structural analysis. -/
structure StructureOptions where
  maxCycleLength : Nat := 8
  maxCycles : Nat := 256
  /-- Assumptions with more betweenness bear the load. -/
  loadBearingThreshold : Float := 0.3

/-- What the structure of an argument shows. -/
structure StructuralAnalysis where
  fallacies : List Fallacy
  biases : List Bias
  centrality : Array Float
  loadBearing : List Bool
  dependencyOrder : List PropositionId
  degraded : Bool
  warnings : List Warning

namespace Warning

/-- The warning that a part of the structural analysis was stopped. -/
def structureStopped (part : String) (reason : Exhaustion) : Warning :=
  match reason with
  | .cancelled => .engine .cancelled
  | reason => .engine (.cycleBudget (part ++ " stopped: " ++ reason.message))

/-- The warning that there may be more cycles than were listed. -/
def cyclesTruncated (count : Nat) : Warning :=
  .engine (.cycleBudget ("stopped after " ++ toString count ++ " cycles"))

end Warning

/-- The warnings about a search for cycles. -/
def CycleSearch.warnings (s : CycleSearch) (maxCycles : Nat) : List Warning :=
  (if s.truncated then [.cyclesTruncated maxCycles] else [])
    ++ s.exhausted.toList.map (.structureStopped "cycle enumeration")

namespace ArgumentGraph

/-- The betweenness of each node if the budget allows it, else zero, and what stopped it. -/
def centralityOrZero (g : ArgumentGraph) (adjacency : Adjacency) (budget : Budget) :
    Array Float × Option Exhaustion :=
  match adjacency.betweennessWithin budget with
  | .ok centrality => (centrality, none)
  | .error reason => (Array.replicate g.size 0, some reason)

def analyze (g : ArgumentGraph) (options : StructureOptions) (budget : Budget) :
    StructuralAnalysis :=
  let (search, budget) :=
    g.supportChain.searchCycles options.maxCycleLength options.maxCycles budget
  let adjacency := g.undirected
  let (centrality, stopped) := g.centralityOrZero adjacency budget
  let threshold := options.loadBearingThreshold
  let bearing := g.loadBearing centrality threshold
  { fallacies := g.circularReasoning search.cycles ++ g.hastyGeneralizations ++ g.falseDilemmas
      ++ g.loadBearingAssumptions adjacency centrality threshold
    biases := g.biases centrality
    centrality
    loadBearing := g.nodes.map (· ∈ bearing)
    dependencyOrder := g.ids g.dependencyOrder
    degraded := search.truncated || search.exhausted.isSome || stopped.isSome
    warnings := search.warnings options.maxCycles
      ++ stopped.toList.map (.structureStopped "centrality analysis") }

end ArgumentGraph

end Elenchus
