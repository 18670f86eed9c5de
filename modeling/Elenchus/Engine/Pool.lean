import Elenchus.Engine.Analysis

/-!
# Pools

A pool analyses many requests with one configuration.  It may be cancelled; all that it analyses
from then on is analysed as far as a cancelled analysis goes.  The reports on a batch of requests
come in the order of the requests.
-/

namespace Elenchus

/-- A configuration that is shared by many analyses. -/
structure Pool where
  config : EngineConfig
  cancelled : Bool := false

namespace Pool

/-- A pool with a configuration, if an analysis can be run with it. -/
def ofConfig (config : EngineConfig) : Except EngineError Pool :=
  config.checked.map fun config => { config }

def cancel (pool : Pool) : Pool := { pool with cancelled := true }

def analyze (pool : Pool) (request : Request) : Report :=
  pool.config.analyze pool.cancelled request

/-- The report on an argument that is validated already. -/
def analyzeArgument (pool : Pool) (arg : Argument) (warnings : List Warning) : Report :=
  pool.config.analyzeArgument pool.cancelled arg warnings

def analyzeBatch (pool : Pool) (requests : List Request) : List Report :=
  requests.map pool.analyze

end Pool

end Elenchus
