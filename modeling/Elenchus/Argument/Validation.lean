import Elenchus.Argument.Request
import Elenchus.Argument.Warning

/-!
# Validation

An argument is made from the records of a request.  A record that cannot be used is left out, a
field that cannot be used is given its default, and each time a warning says so; a request as a
whole is never refused.  The records are taken in order, and which of them are taken depends on
earlier ones in one way only: an identifier is taken once.

Which identifiers are taken is looked up in an index, which grows with the propositions and tells
later where each of them is.  That it holds these propositions and nothing else is part of what an
argument is.

`Argument.WellFormed` is what validation establishes: identifiers are trimmed, not blank and
different, relationships join propositions of the argument, and formal expressions are not blank.
-/

namespace Elenchus

/-- The positions of propositions by their identifiers.  Where an identifier is entered again, the
last entry counts. -/
structure Index where
  entries : List (PropositionId × Nat) := []
deriving DecidableEq, Repr

namespace Index

def enter (x : Index) (id : PropositionId) (position : Nat) : Index :=
  ⟨(id, position) :: x.entries⟩

def find? (x : Index) (id : PropositionId) : Option Nat := x.entries.lookup id

/-- The identifiers that are entered. -/
def ids (x : Index) : List PropositionId := x.entries.map (·.1)

/-- The index of some propositions, entered one after another. -/
def ofPropositions (propositions : List Proposition) : Index :=
  propositions.zipIdx.foldl (fun x (p, i) => x.enter p.id i) {}

theorem ofPropositions_concat (propositions : List Proposition) (p : Proposition) :
    ofPropositions (propositions ++ [p]) =
      (ofPropositions propositions).enter p.id propositions.length := by
  rw [ofPropositions, List.zipIdx_append, List.foldl_append, Nat.zero_add]
  rfl

end Index

/-- Propositions that have been accepted, and their index. -/
structure Register where
  propositions : List Proposition := []
  index : Index := {}
  indexed : index = .ofPropositions propositions := by rfl

/-- A register with one proposition more. -/
def Register.enter (s : Register) (p : Proposition) : Register where
  propositions := s.propositions ++ [p]
  index := s.index.enter p.id s.propositions.length
  indexed := by rw [Index.ofPropositions_concat, ← s.indexed]

/-- The propositions and relationships of one argument, in order, with the index of the
propositions. -/
structure Argument where
  propositions : List Proposition
  relationships : List Relationship
  index : Index := .ofPropositions propositions
  indexed : index = .ofPropositions propositions := by rfl
deriving DecidableEq, Repr

/-- The request that holds the records of some propositions and relationships. -/
def Request.ofModel (propositions : List Proposition) (relationships : List Relationship) :
    Request :=
  ⟨propositions.map Proposition.record, relationships.map Relationship.record⟩

namespace Argument

def size (arg : Argument) : Nat := arg.propositions.length

/-- The position of the proposition with an identifier. -/
def indexOf? (arg : Argument) (id : PropositionId) : Option Nat := arg.index.find? id

/-- The proposition with an identifier. -/
def find? (arg : Argument) (id : PropositionId) : Option Proposition :=
  (arg.indexOf? id).bind (arg.propositions[·]?)

def ids (arg : Argument) : List PropositionId := arg.propositions.map (·.id)

/-- The request that holds the records of an argument. -/
def request (arg : Argument) : Request := .ofModel arg.propositions arg.relationships

/-- What validation establishes. -/
structure WellFormed (arg : Argument) : Prop where
  trimmed : ∀ p ∈ arg.propositions, p.id.text ≠ "" ∧ Text.trimmed p.id.text = p.id.text
  distinct : arg.ids.Nodup
  joined : ∀ r ∈ arg.relationships, r.fromId ∈ arg.ids ∧ r.toId ∈ arg.ids
  expressed : ∀ p ∈ arg.propositions, ∀ e, p.formalExpression = some e → ¬ Text.isBlankText e

end Argument

/-- The text of a field, trimmed, unless it is absent or blank. -/
def filled (field : Option String) : Option String := field.bind idText?

/-- A field that holds one of a few values, or its default; a value that is none of them gives a
warning. -/
def choiceOr {α : Type} (subject : WarningSubject) (read : String → Except InputError α)
    (default : α) (field : Option String) : α × List Warning :=
  match (filled field).map read with
  | some (.ok value) => (value, [])
  | some (.error error) => (default, [.input subject error])
  | none => (default, [])

/-- A field that has to hold one of a few values. -/
def choiceNeeded {α : Type} (read : String → Except InputError α) (field : Option String) :
    Except InputError α :=
  match filled field with
  | some s => read s
  | none => .error (.missingField .kind)

/-- The proposition of a record, with the warnings about it; `taken` holds the identifiers of the
propositions before it. -/
def PropositionRecord.check (r : PropositionRecord) (position : Nat) (taken : List PropositionId) :
    Option Proposition × List Warning :=
  match filled r.id with
  | none => (none, [.input (.propositionAt position) (.missingField .id)])
  | some idText =>
    let id : PropositionId := ⟨idText⟩
    if id ∈ taken then (none, [.input (.proposition id) (.duplicateId id)])
    else
      match choiceNeeded PropositionKind.ofText r.kind with
      | .error error => (none, [.input (.proposition id) error])
      | .ok kind =>
        let (confidence, warnings) :=
          choiceOr (.proposition id) Confidence.ofText .medium r.confidence
        (some
          { id
            statement := r.statement.getD ""
            formalExpression := r.formalExpression.filter (!Text.isBlankText ·)
            kind
            confidence
            isImplicit := r.isImplicit.getD false
            isLoadBearing := r.isLoadBearing.getD false }, warnings)

/-- The identifier of a relationship record; one without is named by its position, with a warning.
-/
def RelationshipRecord.identify (r : RelationshipRecord) (position : Nat) :
    RelationshipId × List Warning :=
  match filled r.id with
  | some s => (⟨s⟩, [])
  | none =>
    (⟨"#" ++ toString position⟩, [.input (.relationshipAt position) (.missingField .id)])

/-- The identifiers of two endpoints that are not among those known, each once. -/
def missingEndpoints (known : List PropositionId) (source target : PropositionId) :
    List PropositionId :=
  (if source = target then [source] else [source, target]).filter (· ∉ known)

/-- The relationship of a record, with the warnings about it; `known` holds the identifiers of the
propositions. -/
def RelationshipRecord.check (r : RelationshipRecord) (position : Nat)
    (known : List PropositionId) : Option Relationship × List Warning :=
  let (id, unnamed) := r.identify position
  let refused (error : InputError) : Option Relationship × List Warning :=
    (none, unnamed ++ [.input (.relationship id) error])
  match filled r.fromId, filled r.toId with
  | none, _ => refused (.missingField .fromId)
  | some _, none => refused (.missingField .toId)
  | some source, some target =>
    let missing := missingEndpoints known ⟨source⟩ ⟨target⟩
    if missing ≠ [] then refused (.danglingReference missing)
    else
      match choiceNeeded RelationshipKind.ofText r.kind with
      | .error error => refused error
      | .ok kind =>
        let (strength, warnings) :=
          choiceOr (.relationship id) Strength.ofText .moderate r.strength
        (some ⟨id, ⟨source⟩, ⟨target⟩, kind, strength, r.label⟩, unnamed ++ warnings)

/-- The records that start at a position, entered into a register, each that is accepted. -/
def checkPropositions (position : Nat) (s : Register) :
    List PropositionRecord → Register × List Warning
  | [] => (s, [])
  | r :: rs =>
    match r.check position s.index.ids with
    | (some p, warnings) =>
      let (s, more) := checkPropositions (position + 1) (s.enter p) rs
      (s, warnings ++ more)
    | (none, warnings) =>
      let (s, more) := checkPropositions (position + 1) s rs
      (s, warnings ++ more)

/-- The relationships of records that start at a position. -/
def checkRelationships (position : Nat) (known : List PropositionId) :
    List RelationshipRecord → List Relationship × List Warning
  | [] => ([], [])
  | r :: rs =>
    let (taken, warnings) := r.check position known
    let (relationships, more) := checkRelationships (position + 1) known rs
    (taken.toList ++ relationships, warnings ++ more)

/-- The argument of a request, with all warnings about its records. -/
def Request.validate (r : Request) : Argument × List Warning :=
  let (s, warnings) := checkPropositions 0 {} r.propositions
  let (relationships, more) := checkRelationships 0 s.index.ids r.relationships
  (⟨s.propositions, relationships, s.index, s.indexed⟩, warnings ++ more)

/-- The argument of typed propositions and relationships, checked like a request. -/
def Argument.ofParts (propositions : List Proposition) (relationships : List Relationship) :
    Argument × List Warning :=
  (Request.ofModel propositions relationships).validate

end Elenchus
