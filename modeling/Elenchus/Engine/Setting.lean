import Elenchus.Engine.Config
import Elenchus.Toml.Document
import Elenchus.Toml.Text

/-!
# Settings

A configuration is read from a record, in which every setting may be missing, and written as one.
Settings that are not known are passed over; a setting of the wrong type spoils the whole record.
The settings of a record may also be given as a list, in order and without their names.  A choice
is given by its name, or by a record whose one field has that name and holds nothing.

A configuration file is a TOML document of that record.  JSON and TOML differ in two points, which a
`Format` names.
-/

namespace Elenchus

/-- How settings are written down. -/
structure Format where
  /-- Whether a list may go on behind the last setting. -/
  allowsSurplus : Bool
  /-- What holds nothing. -/
  isNothing : Datum → Bool

/-- JSON: a list ends with the last setting or before it, and `null` holds nothing. -/
def Format.json : Format where
  allowsSurplus := false
  isNothing
    | .null => true
    | _ => false

/-- TOML: a list may go on, and it is the empty table that holds nothing. -/
def Format.toml : Format where
  allowsSurplus := true
  isNothing
    | .record [] => true
    | _ => false

/-- A setting of a configuration: its name, and how its value is put in. -/
structure Setting (κ : Type) where
  name : String
  put : Format → Datum → κ → Option κ

namespace Setting

/-- A natural number of 64 bits. -/
def word? : Datum → Option Nat
  | .int n => if fitsUnsigned n then some n.toNat else none
  | _ => none

/-- A number; an integer will do. -/
def number? : Datum → Option Float
  | .int n => some (Float.ofInt n)
  | .float x => some x
  | _ => none

/-- One of a few values, by its exact name. -/
def choice? {α : Type} (names : List (String × α)) (format : Format) : Datum → Option α
  | .text s => names.lookup s
  | .record [(s, d)] => if format.isNothing d then names.lookup s else none
  | _ => none

/-- A configuration with the settings of a record put in, or those of a list.  A date has a form of
its own, in which no setting is known. -/
def putAll? {κ : Type} (settings : List (Setting κ)) (config : κ) (format : Format) :
    Datum → Option κ
  | .record fields =>
    settings.foldlM
      (fun config s => (fields.lookup s.name).elim (some config) (s.put format · config)) config
  | .list items =>
    if settings.length < items.length && !format.allowsSurplus then none
    else (settings.zip items).foldlM (fun config (s, item) => s.put format item config) config
  | .date _ => some config
  | _ => none

end Setting

open Setting

def SearchLimits.settings : List (Setting SearchLimits) :=
  [⟨"max_steps", fun _ d c => do return { c with maxSteps := ← word? d }⟩,
   ⟨"time_limit_ms", fun _ d c => do return { c with timeLimitMillis := ← word? d }⟩,
   ⟨"max_contradictions", fun _ d c => do return { c with maxContradictions := ← word? d }⟩]

def EncodingOptions.settings : List (Setting EncodingOptions) :=
  [⟨"attack_policy", fun format d c => do
      return { c with attackPolicy := ← choice? AttackPolicy.names format d }⟩,
   ⟨"min_support_strength", fun format d c => do
      return { c with minSupportStrength := ← choice? Strength.names format d }⟩]

def StructureOptions.settings : List (Setting StructureOptions) :=
  [⟨"max_cycle_length", fun _ d c => do return { c with maxCycleLength := ← word? d }⟩,
   ⟨"max_cycles", fun _ d c => do return { c with maxCycles := ← word? d }⟩,
   ⟨"load_bearing_threshold", fun _ d c => do
      return { c with loadBearingThreshold := ← number? d }⟩]

def workerSettings : List (Setting Nat) := [⟨"worker_threads", fun _ d _ => word? d⟩]

def EncodingOptions.ofDatum? (format : Format) (d : Datum) : Option EncodingOptions :=
  putAll? EncodingOptions.settings {} format d

def StructureOptions.ofDatum? (format : Format) (d : Datum) : Option StructureOptions :=
  putAll? StructureOptions.settings {} format d

namespace EngineConfig

/-- All settings, in four records. -/
def settings : List (Setting EngineConfig) :=
  [⟨"solver", fun format d c => do
      return { c with search := ← putAll? SearchLimits.settings {} format d }⟩,
   ⟨"encoding", fun format d c => do
      return { c with encoding := ← EncodingOptions.ofDatum? format d }⟩,
   ⟨"graph", fun format d c => do
      return { c with graph := ← StructureOptions.ofDatum? format d }⟩,
   ⟨"pool", fun format d c => do
      return { c with workers := ← putAll? workerSettings 0 format d }⟩]

def ofDatum? (format : Format) (d : Datum) : Option EngineConfig := putAll? settings {} format d

/-- The configuration of a TOML document, if an analysis can be run with it. -/
def ofToml (text : String) : Except EngineError EngineConfig :=
  match Datum.ofToml? text with
  | none => .error (.configMalformed "not a TOML document")
  | some d =>
    match ofDatum? .toml d with
    | none => .error (.configMalformed "a setting has the wrong type")
    | some config => config.checked

def toDatum (c : EngineConfig) : Datum :=
  .record
    [("solver", .record
      [("max_steps", .nat c.search.maxSteps), ("time_limit_ms", .nat c.search.timeLimitMillis),
        ("max_contradictions", .nat c.search.maxContradictions)]),
     ("encoding", .record
      [("attack_policy", .text c.encoding.attackPolicy.name),
        ("min_support_strength", .text c.encoding.minSupportStrength.name)]),
     ("graph", .record
      [("max_cycle_length", .nat c.graph.maxCycleLength),
        ("max_cycles", .nat c.graph.maxCycles),
        ("load_bearing_threshold", .float c.graph.loadBearingThreshold)]),
     ("pool", .record [("worker_threads", .nat c.workers)])]

/-- The TOML document of a configuration.  A number too great for the format cannot be written. -/
def toToml (c : EngineConfig) : Except EngineError String :=
  match c.toDatum.toToml? with
  | some text => .ok text
  | none => .error (.configMalformed "a number is out of range")

end EngineConfig

end Elenchus
