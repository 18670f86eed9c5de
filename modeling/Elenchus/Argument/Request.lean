import Elenchus.Argument.Proposition
import Elenchus.Argument.Relationship
import Elenchus.Json.Number
import Elenchus.Json.Text

/-!
# Requests

A request holds the records of an argument as they come in: every field may be missing, and nothing
is checked yet.  It is read from a JSON text.  Each field may go by several names, and a record may
also be written as the list of its fields in order.

A text can be wrong in two ways, and the first fault in the order of the text is the one that is
reported: it is not JSON, or it is JSON of another shape.  Fields that are not known are passed
over, but what stands in them has to be JSON, but for lone surrogates, which nobody asks for.  A
list is read as far as there are fields; where it goes on the end of the list is missing, which is a
fault against the grammar.
-/

namespace Elenchus

/-- A proposition as it comes in. -/
structure PropositionRecord where
  id : Option String := none
  statement : Option String := none
  formalExpression : Option String := none
  kind : Option String := none
  confidence : Option String := none
  isImplicit : Option Bool := none
  isLoadBearing : Option Bool := none
deriving DecidableEq, Repr

/-- A relationship as it comes in. -/
structure RelationshipRecord where
  id : Option String := none
  fromId : Option String := none
  toId : Option String := none
  kind : Option String := none
  strength : Option String := none
  label : Option String := none
deriving DecidableEq, Repr

/-- The records of an argument. -/
structure Request where
  propositions : List PropositionRecord := []
  relationships : List RelationshipRecord := []
deriving DecidableEq, Repr

def Request.isEmpty (r : Request) : Bool := r.propositions.isEmpty && r.relationships.isEmpty

def Proposition.record (p : Proposition) : PropositionRecord where
  id := some p.id.text
  statement := some p.statement
  formalExpression := p.formalExpression
  kind := some p.kind.name
  confidence := some p.confidence.name
  isImplicit := some p.isImplicit
  isLoadBearing := some p.isLoadBearing

def Relationship.record (r : Relationship) : RelationshipRecord where
  id := some r.id.text
  fromId := some r.fromId.text
  toId := some r.toId.text
  kind := some r.kind.name
  strength := some r.strength.name
  label := r.label

/-! ## Reading -/

/-- What is wrong with the text of a request. -/
inductive RequestFault where
  /-- It is not JSON. -/
  | grammar
  /-- It is JSON of another shape. -/
  | shape
deriving DecidableEq, Repr

namespace Request

open Json (Draft Quoted)

/-- The fault of a value where another kind of value is wanted. -/
def mismatch : Draft → RequestFault
  | .broken | .text none => .grammar
  | .number n => if n.datum?.isSome then .shape else .grammar
  | _ => .shape

/-- A text or nothing. -/
def readText : Draft → Except RequestFault (Option String)
  | .null => .ok none
  | .text (some s) => .ok (some s)
  | d => .error (mismatch d)

/-- A truth value or nothing. -/
def readFlag : Draft → Except RequestFault (Option Bool)
  | .null => .ok none
  | .bool b => .ok (some b)
  | d => .error (mismatch d)

mutual

def isWhole : Draft → Bool
  | .broken => false
  | .list items finished => areWhole items && finished
  | .record fields finished => fieldsAreWhole fields && finished
  | .null | .bool _ | .number _ | .text _ => true

def areWhole : List Draft → Bool
  | [] => true
  | d :: ds => isWhole d && areWhole ds

/-- Whether the values of all fields are whole. -/
def fieldsAreWhole : List (Quoted × Draft) → Bool
  | [] => true
  | (_, d) :: rest => isWhole d && fieldsAreWhole rest

end

/-- A field of a record: the names it goes by, and how its value is put into the record. -/
structure Field (ρ : Type) where
  names : List String
  read : Draft → ρ → Except RequestFault ρ

/-- A record from its fields by name.  A field that is named twice is a fault where its second name
stands; `seen` holds the fields named already. -/
def readNamed {ρ : Type} (fields : List (Field ρ)) (seen : List Nat) (record : ρ) :
    List (Quoted × Draft) → Except RequestFault ρ
  | [] => .ok record
  | (none, _) :: _ => .error .grammar
  | (some name, value) :: rest =>
    match fields.zipIdx.find? fun (field, _) => name ∈ field.names with
    | none => if isWhole value then readNamed fields seen record rest else .error .grammar
    | some (field, i) =>
      if i ∈ seen then .error .shape
      else do readNamed fields (i :: seen) (← field.read value record) rest

/-- A record from its fields in order. -/
def readListed {ρ : Type} (record : ρ) :
    List (Field ρ) → List Draft → Except RequestFault ρ
  | _, [] => .ok record
  | [], _ :: _ => .error .grammar
  | field :: fields, value :: rest => do readListed (← field.read value record) fields rest

/-- What was read, if the text goes on to the end of it. -/
def whenFinished {ρ : Type} (finished : Bool) (value : ρ) : Except RequestFault ρ :=
  if finished then .ok value else .error .grammar

/-- A record, by name or in order. -/
def readRecord {ρ : Type} (fields : List (Field ρ)) (empty : ρ) : Draft → Except RequestFault ρ
  | .record named finished => do whenFinished finished (← readNamed fields [] empty named)
  | .list listed finished => do whenFinished finished (← readListed empty fields listed)
  | d => .error (mismatch d)

/-- A list of records. -/
def readRecords {ρ : Type} (fields : List (Field ρ)) (empty : ρ) :
    Draft → Except RequestFault (List ρ)
  | .list items finished => do
    whenFinished finished (← items.mapM (readRecord fields empty))
  | d => .error (mismatch d)

/-- The fields of a proposition, in order. -/
def propositionFields : List (Field PropositionRecord) :=
  [⟨["id"], fun d r => do return { r with id := ← readText d }⟩,
   ⟨["statement"], fun d r => do return { r with statement := ← readText d }⟩,
   ⟨["formal_expression", "formalExpression"],
    fun d r => do return { r with formalExpression := ← readText d }⟩,
   ⟨["kind", "type"], fun d r => do return { r with kind := ← readText d }⟩,
   ⟨["confidence"], fun d r => do return { r with confidence := ← readText d }⟩,
   ⟨["is_implicit", "isImplicit"], fun d r => do return { r with isImplicit := ← readFlag d }⟩,
   ⟨["is_load_bearing", "isLoadBearing"],
    fun d r => do return { r with isLoadBearing := ← readFlag d }⟩]

/-- The fields of a relationship, in order. -/
def relationshipFields : List (Field RelationshipRecord) :=
  [⟨["id"], fun d r => do return { r with id := ← readText d }⟩,
   ⟨["from_id", "fromId", "source"], fun d r => do return { r with fromId := ← readText d }⟩,
   ⟨["to_id", "toId", "target"], fun d r => do return { r with toId := ← readText d }⟩,
   ⟨["kind", "type"], fun d r => do return { r with kind := ← readText d }⟩,
   ⟨["strength"], fun d r => do return { r with strength := ← readText d }⟩,
   ⟨["label"], fun d r => do return { r with label := ← readText d }⟩]

/-- The fields of a request, in order. -/
def requestFields : List (Field Request) :=
  [⟨["propositions"], fun d r => do
      return { r with propositions := ← readRecords propositionFields {} d }⟩,
   ⟨["relationships"], fun d r => do
      return { r with relationships := ← readRecords relationshipFields {} d }⟩]

def ofText (text : String) : Except RequestFault Request := do
  let (draft, ended) := Draft.ofText text
  whenFinished ended (← readRecord requestFields {} draft)

/-- The request that a JSON value holds.  What is a value already can only be of another shape. -/
def ofDatum (d : Datum) : Except RequestFault Request :=
  (ofText (d.toJson .compact)).mapError fun _ => .shape

end Request

end Elenchus
