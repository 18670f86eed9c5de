import Elenchus.Argument.Validation
import Elenchus.Clause.Expansion
import Elenchus.Formula.Parser
import Elenchus.Order.NatSet

/-!
# From arguments to clauses

An argument is stated as clauses.  Every proposition has a variable of its own, the propositions
first and in order, so that the proposition at position `i` has the variable `i`.  A proposition
with an expression that can be used is stated by the clauses of its expression, and its variable is
defined to be the conclusion of the expression; any other proposition is stated by its variable
alone.  A relationship says of two such variables that one implies the other, or that not both are
true, or nothing.

Every clause is tagged with the propositions that it comes from, one or two.  `Encoding.restrict`
keeps the clauses that come from given propositions only; that is what a set of propositions says by
itself.
-/

namespace Elenchus

/-- What attacks state. -/
inductive AttackPolicy where
  /-- Nothing. -/
  | inert
  /-- That the two propositions are not both true. -/
  | contradicts
deriving DecidableEq, Repr

namespace AttackPolicy

def name : AttackPolicy → String
  | .inert => "inert"
  | .contradicts => "contradicts"

def names : List (String × AttackPolicy) := [("inert", .inert), ("contradicts", .contradicts)]

end AttackPolicy

/-- The choices that an encoding leaves open. -/
structure EncodingOptions where
  attackPolicy : AttackPolicy := .inert
  /-- Supports that are weaker state nothing. -/
  minSupportStrength : Strength := .moderate
deriving DecidableEq, Repr

/-- Where a clause comes from. -/
inductive ClauseOrigin where
  | expression
  /-- The definition of a proposition's variable. -/
  | definition
  /-- A proposition without a usable expression. -/
  | asserted
  /-- The relationship at a position. -/
  | relationship (position : Nat)
deriving DecidableEq, Repr

/-- A clause with its provenance. -/
structure TaggedClause where
  clause : Clause
  /-- The positions of the propositions it comes from, ascending. -/
  tags : List Nat
  origin : ClauseOrigin
  /-- The text that a derivation quotes. -/
  source : String
deriving DecidableEq

structure Encoding where
  table : VarTable
  clauses : List TaggedClause
  /-- The positions of the propositions whose expression could not be used, and why. -/
  failures : List (Nat × FormulaError)
  propositions : Nat
deriving DecidableEq

namespace Encoding

/-- The clauses that come from the given propositions only, with their positions. -/
def restrict (e : Encoding) (members : List Nat) : List (Clause × Nat) :=
  (e.clauses.zipIdx.filter fun (c, _) => c.tags.all (· ∈ members)).map fun (c, i) => (c.clause, i)

/-- The positions of the propositions that some clause comes from. -/
def contributing (e : Encoding) : List Nat := natSet (e.clauses.flatMap (·.tags))

/-- The variables of the clauses that come from one of the given propositions, among others. -/
def variablesOf (e : Encoding) (members : List Nat) : List Nat :=
  natSet ((e.clauses.filter fun c => c.tags.any (· ∈ members)).flatMap fun c =>
    c.clause.literals.map Literal.var)

def members (e : Encoding) : List Nat := List.range e.propositions

end Encoding

/-! ## Propositions -/

/-- What a usable expression states. -/
structure Lowered where
  body : List Clause
  /-- The clauses that define the proposition's variable. -/
  link : List Clause
  conclusion : Formula

/-- The clauses of a formula and those that define a variable as its conclusion. -/
def Formula.state (f : Formula) (v : Nat) (table : VarTable) :
    Except FormulaError Lowered × VarTable :=
  match f.clauses table with
  | (.error error, table) => (.error error, table)
  | (.ok body, table) =>
    match f.conclusion.definition v table with
    | (.error error, table) => (.error error, table)
    | (.ok link, table) => (.ok ⟨body, link, f.conclusion⟩, table)

/-- The clauses of an expression given as text. -/
def stateExpression (text : String) (v : Nat) (table : VarTable) :
    Except FormulaError Lowered × VarTable :=
  match Formula.parse text with
  | .error error => (.error error, table)
  | .ok f => f.state v table

/-- What is stated of one proposition. -/
structure PropositionEncoding where
  clauses : List TaggedClause
  failure : Option FormulaError
  table : VarTable

/-- The statement that a proposition is true, without a word on why. -/
def Proposition.assertion (p : Proposition) (position : Nat) : TaggedClause :=
  ⟨.ofList [⟨position, true⟩], [position], .asserted, "\"" ++ p.displayText ++ "\" asserted"⟩

/-- The clauses of the proposition at a position. -/
def Proposition.encode (p : Proposition) (position : Nat) (table : VarTable) :
    PropositionEncoding :=
  match p.formalExpression with
  | none => ⟨[p.assertion position], none, table⟩
  | some text =>
    match stateExpression text position table with
    | (.error error, table) => ⟨[p.assertion position], some error, table⟩
    | (.ok lowered, table) =>
      let body := lowered.body.map fun c => ⟨c, [position], .expression, Text.trimmed text⟩
      let source := "[" ++ p.id.text ++ "] ↔ " ++ lowered.conclusion.text
      let link := lowered.link.map fun c => ⟨c, [position], .definition, source⟩
      ⟨body ++ link, none, table⟩

/-- The clauses of propositions that start at a position. -/
def encodePropositions (position : Nat) (table : VarTable) :
    List Proposition → List TaggedClause × List (Nat × FormulaError) × VarTable
  | [] => ([], [], table)
  | p :: ps =>
    let one := p.encode position table
    let (clauses, failures, table) := encodePropositions (position + 1) one.table ps
    (one.clauses ++ clauses, (one.failure.toList.map (position, ·)) ++ failures, table)

/-! ## Relationships -/

/-- What a relationship states of the variables of its endpoints. -/
def Relationship.clause? (r : Relationship) (options : EncodingOptions) (source target : Nat) :
    Option Clause :=
  let implies : Clause := .ofList [⟨source, false⟩, ⟨target, true⟩]
  let excludes : Clause := .ofList [⟨source, false⟩, ⟨target, false⟩]
  match r.kind with
  | .supports => if r.strength.atLeast options.minSupportStrength then some implies else none
  | .dependsOn | .assumes => some implies
  | .contradicts => some excludes
  | .attacks =>
    match options.attackPolicy with
    | .inert => none
    | .contradicts => some excludes

/-- The text of a relationship: its endpoints around its kind, and its label unless that is blank.
-/
def Relationship.text (r : Relationship) : String :=
  let base := r.fromId.text ++ " " ++ r.kind.name ++ " " ++ r.toId.text
  match r.label.bind idText? with
  | some label => base ++ " (" ++ label ++ ")"
  | none => base

/-- The clause of the relationship at a position, if it states anything. -/
def Relationship.encode (arg : Argument) (options : EncodingOptions) (r : Relationship)
    (position : Nat) : Option TaggedClause := do
  let source ← arg.indexOf? r.fromId
  let target ← arg.indexOf? r.toId
  let clause ← r.clause? options source target
  if clause.isTautology then none
  else some ⟨clause, natSet [source, target], .relationship position, r.text⟩

/-- The clauses of an argument: those of the propositions, then those of the relationships. -/
def Argument.encode (arg : Argument) (options : EncodingOptions) : Encoding :=
  let minted := VarTable.empty.internAll (arg.propositions.map fun p => .proposition p.id)
  let (stated, failures, table) := encodePropositions 0 minted arg.propositions
  let joined := arg.relationships.zipIdx.filterMap fun (r, i) => r.encode arg options i
  ⟨table, stated ++ joined, failures, arg.size⟩

end Elenchus
