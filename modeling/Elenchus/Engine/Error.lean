import Elenchus.ErrorCode

/-!
# Errors of the engine

What keeps the engine from being set up, or from finishing its work.
-/

namespace Elenchus

/-- The causes for which an analysis is not done, or not done in full.  A detail is part of the
message. -/
inductive EngineError where
  /-- The search for contradictions ran out of its budget. -/
  | solverBudget (detail : String)
  /-- The search for cycles ran out of its bounds. -/
  | cycleBudget (detail : String)
  | cancelled
  /-- A setting is out of range. -/
  | invalidConfig (detail : String)
  /-- The settings could not be read from the file. -/
  | configUnreadable (detail : String)
  /-- The text of the settings is not of the right form. -/
  | configMalformed (detail : String)
  /-- The workers could not be set up. -/
  | workers (detail : String)
deriving DecidableEq, Repr

namespace EngineError

def code : EngineError → ErrorCode
  | .solverBudget _ => ⟨.engine, 5001, "ENGINE_SOLVER_TIMEOUT"⟩
  | .cycleBudget _ => ⟨.engine, 5002, "ENGINE_CYCLE_BUDGET_EXHAUSTED"⟩
  | .cancelled => ⟨.engine, 5003, "ENGINE_CANCELLED"⟩
  | .invalidConfig _ => ⟨.engine, 5004, "ENGINE_INVALID_CONFIG"⟩
  | .configUnreadable _ => ⟨.engine, 5005, "ENGINE_CONFIG_IO"⟩
  | .configMalformed _ => ⟨.engine, 5006, "ENGINE_CONFIG_PARSE"⟩
  | .workers _ => ⟨.engine, 5007, "ENGINE_THREAD_POOL"⟩

def message : EngineError → String
  | .solverBudget detail => "Solver budget exhausted: " ++ detail
  | .cycleBudget detail => "Cycle enumeration budget exhausted: " ++ detail
  | .cancelled => "Analysis cancelled"
  | .invalidConfig detail => "Invalid configuration: " ++ detail
  | .configUnreadable detail => "Configuration I/O error: " ++ detail
  | .configMalformed detail => "Configuration parse error: " ++ detail
  | .workers detail => "Thread pool error: " ++ detail

end EngineError

end Elenchus
