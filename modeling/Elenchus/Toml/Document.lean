import Elenchus.Toml.Value

/-!
# TOML documents

A document is read line by line.  A line is blank, or gives a header, under which the following keys
are put, or gives a key its value.  A byte order mark may stand before the document.
-/

namespace Elenchus.Toml

/-- What has been read of a document. -/
structure Progress where
  entries : Entries := []
  /-- The header that keys are put under. -/
  header : List String := []

/-- The document with the table of a header opened, or with one more table of a list. -/
def Progress.open? (p : Progress) (listed : Bool) (path : List String) : Option Progress := do
  return ⟨← openAt (if listed then tablesAt? else tableAt?) p.entries path, path⟩

/-- The document with a value put under the header. -/
def Progress.assign? (p : Progress) (path : List String) (value : Datum) : Option Progress := do
  return { p with entries := ← assignUnder p.entries path value p.header }

/-- What follows a header line, and its path.  The first bracket is read already; a second tells
that the table is one of a list, and has to be closed as well. -/
def headerLine? : List Char → Option (Bool × List String × List Char)
  | '[' :: cs => do
    let (path, rest) ← path? cs
    match rest with
    | ']' :: ']' :: rest => return (true, path, ← restOfLine? rest)
    | _ => none
  | cs => do
    let (path, rest) ← path? cs
    match rest with
    | ']' :: rest => return (false, path, ← restOfLine? rest)
    | _ => none

/-- What follows a line that gives a key its value, the key and the value. -/
def keyLine? (cs : List Char) : Option (List String × Datum × List Char) := do
  let (path, rest) ← path? cs
  match rest with
  | '=' :: rest =>
    let (value, rest) ← value? cs.length 0 (skipSpace rest)
    return (path, value, ← restOfLine? rest)
  | _ => none

/-- Reads the lines of a document, at most `fuel` of them. -/
def readLines? : (fuel : Nat) → Progress → List Char → Option Entries
  | 0, p, cs => if cs = [] then some p.entries else none
  | fuel + 1, p, cs =>
    match skipSpace cs with
    | [] => some p.entries
    | '[' :: rest => do
      let (listed, path, rest) ← headerLine? rest
      readLines? fuel (← p.open? listed path) rest
    | line =>
      match restOfLine? line with
      | some rest => readLines? fuel p rest
      | none => do
        let (path, value, rest) ← keyLine? line
        readLines? fuel (← p.assign? path value) rest

/-- The text without a byte order mark. -/
def dropMark : List Char → List Char
  | '\uFEFF' :: cs => cs
  | cs => cs

end Elenchus.Toml

/-- The record that a TOML document holds, if the text is one. -/
def Elenchus.Datum.ofToml? (text : String) : Option Datum :=
  let cs := Toml.dropMark text.toList
  (Toml.readLines? (cs.length + 1) {} cs).map fun entries => .record (Toml.fieldsOf entries)
