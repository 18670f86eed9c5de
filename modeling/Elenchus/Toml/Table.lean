import Elenchus.Datum

/-!
# Tables of a TOML document

A document builds up one tree of tables.  A table comes about in one of four ways, and may be
written to again in other ways accordingly:

* by its own header; a header is given once;
* by a header in double brackets, which may be given again and then begins the next table of a list;
  the last table of the list is the one that can be reached;
* because a longer header leads through it; it may still be given a header of its own;
* because a dotted key leads through it; only dotted keys of the same table may add to it.

A value is closed once it is written.  Inside an inline table, dotted keys may add to the inline
tables that stand there.
-/

namespace Elenchus.Toml

/-- How a table came about that is not one of a list. -/
inductive Origin where
  | header
  | implied
  | dotted
deriving DecidableEq, Repr

/-- What a key stands for. -/
inductive Node where
  | value (d : Datum)
  | table (origin : Origin) (entries : List (String × Node))
  /-- A list of tables: those before the last, and the last. -/
  | tables (earlier : List Datum) (last : List (String × Node))

/-- The keys of a table with what they stand for, in the order they were written. -/
abbrev Entries := List (String × Node)

/-- The entries with what one key stands for replaced, or added behind the others. -/
def put {ν : Type} (key : String) (value : ν) : List (String × ν) → List (String × ν)
  | [] => [(key, value)]
  | (k, old) :: rest => if k = key then (key, value) :: rest else (k, old) :: put key value rest

mutual

/-- What a node stands for. -/
def Node.datum : Node → Datum
  | .value d => d
  | .table _ entries => .record (fieldsOf entries)
  | .tables earlier last => .list (earlier ++ [.record (fieldsOf last)])

/-- The fields that the entries of a table stand for. -/
def fieldsOf : Entries → List (String × Datum)
  | [] => []
  | (key, node) :: rest => (key, node.datum) :: fieldsOf rest

end

/-! ## Headers -/

/-- Follows the path of a header, and puts at its end what `open?` makes of the node there. -/
def openAt (open? : Option Node → Option Node) (entries : Entries) : List String → Option Entries
  | [] => none
  | [key] => do return put key (← open? (entries.lookup key)) entries
  | key :: path =>
    match entries.lookup key with
    | none => do return put key (.table .implied (← openAt open? [] path)) entries
    | some (.table origin inner) =>
      do return put key (.table origin (← openAt open? inner path)) entries
    | some (.tables earlier last) =>
      do return put key (.tables earlier (← openAt open? last path)) entries
    | some (.value _) => none

/-- The table of a header, unless there is something else already. -/
def tableAt? : Option Node → Option Node
  | none => some (.table .header [])
  | some (.table .implied inner) => some (.table .header inner)
  | some _ => none

/-- The list of tables with one more, unless there is something else already. -/
def tablesAt? : Option Node → Option Node
  | none => some (.tables [] [])
  | some (.tables earlier last) => some (.tables (earlier ++ [.record (fieldsOf last)]) [])
  | some _ => none

/-! ## Keys -/

/-- Gives a dotted key a value in a table of the given origin.  `dotted` tells whether a dot has
led here; then the table has to come from a dotted key too. -/
def assign (origin : Origin) (dotted : Bool) (entries : Entries) (value : Datum) :
    List String → Option Entries
  | [] => none
  | [key] =>
    if dotted && origin ≠ .dotted then none
    else
      match entries.lookup key with
      | none => some (put key (.value value) entries)
      | some _ => none
  | key :: path =>
    match entries.lookup key with
    | none => do return put key (.table .dotted (← assign .dotted true [] value path)) entries
    | some (.table .header _) => none
    | some (.table origin inner) =>
      do return put key (.table origin (← assign origin true inner value path)) entries
    | some (.tables earlier last) =>
      do return put key (.tables earlier (← assign .header true last value path)) entries
    | some (.value _) => none

/-- Gives a dotted key a value in the table under a header. -/
def assignUnder (entries : Entries) (path : List String) (value : Datum) :
    List String → Option Entries
  | [] => assign .header false entries value path
  | key :: header =>
    match entries.lookup key with
    | some (.table origin inner) =>
      do return put key (.table origin (← assignUnder inner path value header)) entries
    | some (.tables earlier last) =>
      do return put key (.tables earlier (← assignUnder last path value header)) entries
    | _ => none

/-- Gives a dotted key a value in an inline table. -/
def assignInline (fields : List (String × Datum)) (value : Datum) :
    List String → Option (List (String × Datum))
  | [] => none
  | [key] =>
    match fields.lookup key with
    | none => some (put key value fields)
    | some _ => none
  | key :: path =>
    match fields.lookup key with
    | none => do return put key (.record (← assignInline [] value path)) fields
    | some (.record inner) =>
      do return put key (.record (← assignInline inner value path)) fields
    | some _ => none

end Elenchus.Toml
