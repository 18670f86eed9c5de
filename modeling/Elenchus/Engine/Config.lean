import Elenchus.Decimal.Shortest
import Elenchus.Encoding
import Elenchus.Engine.Error
import Elenchus.Structure

/-!
# The configuration of the engine

The bounds and choices of an analysis.  A configuration can hold values with which no analysis can
be run; `EngineConfig.fault?` tells the first of them.
-/

namespace Elenchus

/-- The bounds of the search for contradictions. -/
structure SearchLimits where
  maxSteps : Nat := 1000000
  /-- The time for each half of an analysis, in milliseconds. -/
  timeLimitMillis : Nat := 2000
  maxContradictions : Nat := 8
deriving DecidableEq, Repr

/-- The bounds and choices of an analysis. -/
structure EngineConfig where
  search : SearchLimits := {}
  encoding : EncodingOptions := {}
  graph : StructureOptions := {}
  /-- The count of workers; zero stands for one a processor. -/
  workers : Nat := 0

namespace EngineConfig

/-- What is wrong with a configuration, if anything is: the first fault in the order of the
settings. -/
def fault? (c : EngineConfig) : Option String :=
  let threshold := c.graph.loadBearingThreshold
  if c.search.maxSteps = 0 then some "solver.max_steps must be greater than 0"
  else if c.search.timeLimitMillis = 0 then some "solver.time_limit_ms must be greater than 0"
  else if c.graph.maxCycleLength < 2 then some "graph.max_cycle_length must be at least 2"
  else if c.graph.maxCycles = 0 then some "graph.max_cycles must be greater than 0"
  else if 0 ≤ threshold ∧ threshold ≤ 1 then none
  else
    some ("graph.load_bearing_threshold must lie in [0, 1], got " ++ Decimal.plain threshold)

/-- The configuration, if an analysis can be run with it. -/
def checked (c : EngineConfig) : Except EngineError EngineConfig :=
  match c.fault? with
  | some detail => .error (.invalidConfig detail)
  | none => .ok c

end EngineConfig

end Elenchus
