import Elenchus.Clause.Expansion
import Elenchus.Engine.Pool
import Elenchus.Engine.Setting
import Elenchus.Json.Text
import Elenchus.Report.Record
import Elenchus.Text.Quoted

/-!
# Commands

What the program can be asked to do: to analyse one file, to analyse several, or to show the clauses
of an expression.  A command is carried out on the contents of files that were read before, and
gives a record to be printed, or an error with its causes.
-/

namespace Elenchus

inductive Command where
  /-- Analyses the request in a file, with the configuration in another. -/
  | analyze (file : String) (config : Option String)
  /-- Analyses the requests in several files; the count of workers goes before the configured one.
  -/
  | batch (files : List String) (config : Option String) (workers : Option Nat)
  /-- Shows the clauses of an expression. -/
  | cnf (expression : String)
deriving DecidableEq, Repr

/-- The content of a file by its name, or why it cannot be read. -/
abbrev FileContents := String → Except String String

/-- Why a command was not carried out. -/
inductive CommandError where
  /-- The configuration in a file cannot be used. -/
  | configuration (file : String) (cause : EngineError)
  /-- The engine cannot be set up. -/
  | engine (cause : EngineError)
  /-- The file of a request cannot be read. -/
  | unreadable (file : String) (cause : String)
  /-- The text of a request is wrong. -/
  | request (file : String) (cause : RequestFault)
  /-- There is no file to analyse. -/
  | noFiles
  /-- An expression cannot be read. -/
  | expression (text : String) (cause : FormulaError)
  /-- An expression has too many clauses. -/
  | clauses (cause : FormulaError)
deriving DecidableEq, Repr

def RequestFault.message : RequestFault → String
  | .grammar => "the text is not JSON"
  | .shape => "the JSON is of another shape"

namespace CommandError

def message : CommandError → String
  | .configuration file _ => "Failed to load configuration from " ++ file
  | .engine cause => cause.message
  | .unreadable file _ => "Failed to read request file " ++ file
  | .request file _ => "Invalid request JSON in " ++ file
  | .noFiles => "No request files given"
  | .expression text _ => "Cannot parse expression " ++ Text.quoted text
  | .clauses cause => cause.message

/-- Why it went wrong, the nearest cause first. -/
def causes : CommandError → List String
  | .configuration _ cause => [cause.message]
  | .unreadable _ cause => [cause]
  | .request _ cause => [cause.message]
  | .expression _ cause => [cause.message]
  | .engine _ | .noFiles | .clauses _ => []

/-- The error of the engine that is behind an error, if there is one. -/
def engineError? : CommandError → Option EngineError
  | .configuration _ cause | .engine cause => some cause
  | .unreadable .. | .request .. | .noFiles | .expression .. | .clauses _ => none

def toDatum (e : CommandError) : Datum :=
  .record [("error", .text e.message), ("causes", .texts e.causes)]

end CommandError

namespace Command

/-- The configuration in a file; without a file it is the default. -/
def loadConfig (contents : FileContents) : Option String → Except CommandError EngineConfig
  | none => .ok {}
  | some file =>
    match contents file with
    | .error cause => .error (.configuration file (.configUnreadable (file ++ ": " ++ cause)))
    | .ok text => (EngineConfig.ofToml text).mapError (.configuration file)

/-- The request in a file. -/
def loadRequest (contents : FileContents) (file : String) : Except CommandError Request :=
  match contents file with
  | .error cause => .error (.unreadable file cause)
  | .ok text => (Request.ofText text).mapError (.request file)

def runAnalyze (contents : FileContents) (file : String) (config : Option String) :
    Except CommandError Datum := do
  let config ← (← loadConfig contents config).checked.mapError .engine
  let request ← loadRequest contents file
  return (config.analyze false request).toDatum

def runBatch (contents : FileContents) (files : List String) (config : Option String)
    (workers : Option Nat) : Except CommandError Datum := do
  if files = [] then throw .noFiles
  let config ← loadConfig contents config
  let requests ← files.mapM (loadRequest contents)
  let pool ← (Pool.ofConfig { config with workers := workers.getD config.workers }).mapError .engine
  return .list ((files.zip (pool.analyzeBatch requests)).map fun (file, report) =>
    .record [("file", .text file), ("report", report.toDatum)])

/-- The record of an expression: how it was read, its atoms and its clauses. -/
def runCnf (expression : String) : Except CommandError Datum := do
  let f ← (Formula.parse expression).mapError (.expression expression)
  match f.clauses VarTable.empty with
  | (.error cause, _) => throw (.clauses cause)
  | (.ok clauses, table) =>
    return .record [("parsed", .text f.text), ("atoms", .texts f.atoms),
      ("clauses", .texts (clauses.map table.clauseText))]

def run (contents : FileContents) : Command → Except CommandError Datum
  | .analyze file config => runAnalyze contents file config
  | .batch files config workers => runBatch contents files config workers
  | .cnf expression => runCnf expression

/-- The files whose content a command needs. -/
def files : Command → List String
  | .analyze file config => config.toList ++ [file]
  | .batch files config _ => config.toList ++ files
  | .cnf _ => []

end Command

end Elenchus
