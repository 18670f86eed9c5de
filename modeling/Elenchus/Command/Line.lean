import Elenchus.Command

/-!
# The command line

The words of a command line are read as a command, with flags for how its result is printed.  Flags
may stand anywhere, and a flag that takes a value may be joined to it by an equals sign.  Behind two
dashes there are no flags any more.
-/

namespace Elenchus

/-- How a program is called. -/
inductive Usage where
  | noCommand
  | unknownCommand (word : String)
  | unknownFlag (word : String)
  | missingValue (flag : String)
  | badNumber (word : String)
  | missingArgument (name : String)
  | surplusArgument (word : String)
deriving DecidableEq, Repr

def Usage.message : Usage → String
  | .noCommand => "a command is needed: analyze, batch or cnf"
  | .unknownCommand word => "unrecognized subcommand '" ++ word ++ "'"
  | .unknownFlag word => "unexpected argument '" ++ word ++ "' found"
  | .missingValue flag => "a value is required for '" ++ flag ++ "'"
  | .badNumber word => "invalid value '" ++ word ++ "' for '--threads'"
  | .missingArgument name => "the required argument <" ++ name ++ "> was not provided"
  | .surplusArgument word => "unexpected argument '" ++ word ++ "' found"

/-- The flags and words of a command line. -/
structure CommandLine where
  /-- The words that are no flags, in order. -/
  words : List String := []
  config : Option String := none
  workers : Option Nat := none
  /-- Whether records are printed with one item a line. -/
  pretty : Bool := false
  /-- Whether the causes of an error are printed. -/
  verbose : Bool := false
  /-- Whether an error is printed as a record. -/
  recordErrors : Bool := false
deriving DecidableEq, Repr

namespace CommandLine

/-- A flag with a value joined to it, taken apart. -/
def unjoined (word : String) : List String :=
  let cs := word.toList
  match cs.takeWhile (· ≠ '='), cs.dropWhile (· ≠ '=') with
  | '-' :: '-' :: name, _ :: value => [String.ofList ('-' :: '-' :: name), String.ofList value]
  | _, _ => [word]

/-- A command line with the value of a flag put in. -/
def withValue (line : CommandLine) (flag value : String) : Except Usage CommandLine :=
  if flag = "-c" ∨ flag = "--config" then .ok { line with config := some value }
  else if flag = "-j" ∨ flag = "--threads" then
    match value.toNat? with
    | some n => .ok { line with workers := some n }
    | none => .error (.badNumber value)
  else .ok line

/-- The flags that take a value.  There is no log, so its level changes nothing. -/
def valueFlags : List String := ["-c", "--config", "-j", "--threads", "--log-level"]

/-- Reads the words of a command line, behind what was read already. -/
def read (line : CommandLine) : List String → Except Usage CommandLine
  | [] => .ok line
  | "--" :: rest => .ok { line with words := line.words ++ rest }
  | "--pretty" :: rest => read { line with pretty := true } rest
  | "-v" :: rest | "--verbose" :: rest => read { line with verbose := true } rest
  | "--json-logs" :: rest => read { line with recordErrors := true } rest
  | [word] =>
    if word ∈ valueFlags then .error (.missingValue word)
    else if word.startsWith "-" then .error (.unknownFlag word)
    else .ok { line with words := line.words ++ [word] }
  | word :: value :: rest =>
    if word ∈ valueFlags then do read (← line.withValue word value) rest
    else if word.startsWith "-" then .error (.unknownFlag word)
    else read { line with words := line.words ++ [word] } (value :: rest)

def ofWords (words : List String) : Except Usage CommandLine :=
  read {} (words.flatMap unjoined)

def command (line : CommandLine) : Except Usage Command :=
  match line.words with
  | [] => .error .noCommand
  | "analyze" :: [] => .error (.missingArgument "FILE")
  | "analyze" :: [file] => .ok (.analyze file line.config)
  | "analyze" :: _ :: word :: _ => .error (.surplusArgument word)
  | "batch" :: [] => .error (.missingArgument "FILES")
  | "batch" :: files => .ok (.batch files line.config line.workers)
  | "cnf" :: [] => .error (.missingArgument "EXPRESSION")
  | "cnf" :: [expression] => .ok (.cnf expression)
  | "cnf" :: _ :: word :: _ => .error (.surplusArgument word)
  | word :: _ => .error (.unknownCommand word)

def layout (line : CommandLine) : Json.Layout := if line.pretty then .indented else .compact

def errorLines (line : CommandLine) (e : CommandError) : List String :=
  if line.recordErrors then [e.toDatum.toJson .compact]
  else
    ("Error: " ++ e.message)
      :: if line.verbose then e.causes.map ("Caused by: " ++ ·) else []

end CommandLine

end Elenchus
