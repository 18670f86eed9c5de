import Elenchus.Json.Token

/-!
# JSON trees, as far as the text goes

A text that stops being JSON is read up to the place where it does: its tree has a `broken` leaf, or
an unfinished list or record, there.  A reader with an expectation of its own can then walk the tree
in the order of the text, and of two faults, one against the grammar and one against the
expectation, it meets the one that stands first.

The tree is built by a machine with a stack of the lists and records that are open (`Frame`).  It
takes the tokens one by one and never looks back.
-/

namespace Elenchus.Json

/-- A tree of JSON values.  `finished` tells whether a list or a record is whole. -/
inductive Draft where
  | null
  | bool (value : Bool)
  | number (numeral : Numeral)
  | text (value : Quoted)
  | list (items : List Draft) (finished : Bool)
  | record (fields : List (Quoted × Draft)) (finished : Bool)
  /-- The text is no JSON from here on. -/
  | broken
deriving Inhabited

/-- A list or a record that is open, its members so far in reverse.  A record may have a field whose
value is still to come. -/
inductive Frame where
  | list (items : List Draft)
  | record (fields : List (Quoted × Draft)) (pending : Option Quoted)

/-- What may come next. -/
inductive Expected where
  /-- A value, or the end of a list if it has no item yet. -/
  | value (first : Bool)
  /-- The name of a field, or the end of a record if it has no field yet. -/
  | name (first : Bool)
  | colon
  /-- A comma or the end of the list or record. -/
  | more
deriving DecidableEq

/-- An open list or record with one more value in it. -/
def Frame.add (value : Draft) : Frame → Frame
  | .list items => .list (value :: items)
  | .record fields (some name) => .record ((name, value) :: fields) none
  | .record fields none => .record fields none

/-- An open list or record, closed. -/
def Frame.close (finished : Bool) : Frame → Draft
  | .list items => .list items.reverse finished
  | .record fields (some name) => .record ((name, .broken) :: fields).reverse finished
  | .record fields none => .record fields.reverse finished

/-- What is expected when a list or record has just been opened. -/
def Frame.start : Frame → Expected
  | .list _ => .value true
  | .record _ _ => .name true

/-- What is expected after a comma. -/
def Frame.next : Frame → Expected
  | .list _ => .value false
  | .record _ _ => .name false

/-- The tree when the text breaks off inside all of these frames. -/
def breakOff (innermost : Draft) : List Frame → Draft
  | [] => innermost
  | frame :: outer => breakOff ((frame.add innermost).close false) outer

/-- The tree when the text breaks off where something is expected: a value that is missing leaves a
`broken` leaf, anything else an unfinished list or record. -/
def brokenAt (expected : Expected) : List Frame → Draft
  | [] => .broken
  | frame :: outer =>
    match expected with
    | .value _ => breakOff .broken (frame :: outer)
    | _ => breakOff (frame.close false) outer

/-- The tree that the tokens build, and whether no token is left behind it. -/
def build (stack : List Frame) (expected : Expected) : List Token → Draft × Bool
  | [] => (brokenAt expected stack, false)
  | token :: rest =>
    let whole (value : Draft) (stack : List Frame) (go : List Frame → Draft × Bool) :=
      match stack with
      | [] => (value, rest.isEmpty)
      | frame :: outer => go (frame.add value :: outer)
    let leaf (value : Draft) := whole value stack fun stack => build stack .more rest
    let begin (frame : Frame) := build (frame :: stack) frame.start rest
    let close (opensList : Bool) :=
      match stack with
      | .list items :: outer =>
        if opensList then
          whole ((Frame.list items).close true) outer fun stack => build stack .more rest
        else (brokenAt expected stack, false)
      | .record fields pending :: outer =>
        if opensList then (brokenAt expected stack, false)
        else
          let closed := (Frame.record fields pending).close true
          whole closed outer fun stack => build stack .more rest
      | [] => (.broken, false)
    match expected, token with
    | .value _, .null => leaf .null
    | .value _, .bool b => leaf (.bool b)
    | .value _, .number n => leaf (.number n)
    | .value _, .text s => leaf (.text s)
    | .value _, .openList => begin (.list [])
    | .value _, .openRecord => begin (.record [] none)
    | .value true, .closeList => close true
    | .name true, .closeRecord => close false
    | .name _, .text s =>
      match stack with
      | .record fields _ :: outer => build (.record fields (some s) :: outer) .colon rest
      | _ => (brokenAt expected stack, false)
    | .colon, .colon => build stack (.value false) rest
    | .more, .comma =>
      match stack with
      | frame :: outer => build (frame :: outer) frame.next rest
      | [] => (.broken, false)
    | .more, .closeList => close true
    | .more, .closeRecord => close false
    | _, _ => (brokenAt expected stack, false)

/-- The tree of a text, and whether the text ends with it. -/
def Draft.ofText (text : String) : Draft × Bool :=
  build [] (.value false) (tokens text.toList)

end Elenchus.Json
