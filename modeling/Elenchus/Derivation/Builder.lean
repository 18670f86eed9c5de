import Elenchus.Contradiction.Core
import Elenchus.Derivation.Basic
import Elenchus.Derivation.Error

/-!
# Derivations from searches

The log of a failed search is turned into a derivation.  The clauses that were searched are its
premises, in order, so that the clause at position `i` is on step `i + 1`.  A forced literal cites
its clause and the steps on which the other literals are refuted; a case split opens a case; a
falsified clause forces one more literal, opposite to one that is there, and ends its case in
falsity; a variable both of whose cases have failed ends the case around them.
-/

namespace Elenchus

/-- What is known of a case that is open. -/
structure CaseFrame where
  /-- The step of the assumption; the outermost frame has none. -/
  assumption : Option Nat := none
  /-- The literals derived, each with its step, the latest first. -/
  derived : List (Literal × Nat) := []
  /-- The step on which falsity was reached. -/
  bottom : Option Nat := none
  /-- The cases inside that are closed, each from its assumption to its falsity. -/
  cases : List (Nat × Nat) := []
deriving DecidableEq, Repr

/-- A derivation that is being written. -/
structure Builder where
  /-- The steps, the latest first. -/
  steps : List Step
  count : Nat
  frame : CaseFrame
  /-- The cases around it, the innermost first. -/
  outer : List CaseFrame

namespace Builder

def start : Builder := ⟨[], 0, {}, []⟩

/-- One more step, at the depth of the innermost case; its number is the new count. -/
def push (b : Builder) (statement : Statement) (justification : Justification) : Builder :=
  { b with
    steps := ⟨b.outer.length, statement, justification⟩ :: b.steps
    count := b.count + 1 }

/-- One more step that states a literal, to be cited later. -/
def derive (b : Builder) (l : Literal) (justification : Justification) : Builder :=
  let b := b.push (.literal l) justification
  { b with frame := { b.frame with derived := (l, b.count) :: b.frame.derived } }

/-- One more step that states falsity, at which the innermost case ends. -/
def conclude (b : Builder) (justification : Justification) : Builder :=
  let b := b.push .bottom justification
  { b with frame := { b.frame with bottom := some b.count } }

/-- The step on which a literal was derived, in the innermost case that has it. -/
def lineOf (b : Builder) (l : Literal) : Except ReplayFault Nat :=
  match (b.frame :: b.outer).findSome? fun f => f.derived.lookup l with
  | some line => .ok line
  | none => .error (.notDerived l)

/-- The steps on which the literals of a clause but one are refuted. -/
def antecedents (b : Builder) (c : Clause) (kept : Literal) : Except ReplayFault (List Nat) :=
  (c.literals.filter (· ≠ kept)).mapM fun l => b.lineOf l.negate

def clauseAt (clauses : List Clause) (position : Nat) : Except ReplayFault Clause :=
  match clauses[position]? with
  | some c => .ok c
  | none => .error (.noClause position)

/-- Writes down one event of the log. -/
def replay (clauses : List Clause) (b : Builder) : Search.Event → Except ReplayFault Builder
  | .decision l _ =>
    let opened : Builder := { b with frame := {}, outer := b.frame :: b.outer }
    let b := opened.derive l .assumption
    .ok { b with frame := { b.frame with assumption := some b.count } }
  | .propagation l position => do
    let c ← clauseAt clauses position
    let lines ← b.antecedents c l
    return b.derive l (.unitResolution (position + 1) lines)
  | .pureLiteral l _ => .ok (b.derive l .pureLiteral)
  | .conflict position => do
    let c ← clauseAt clauses position
    match c.literals with
    | [] => return b.conclude (.emptyClause (position + 1))
    | first :: _ =>
      let lines ← b.antecedents c first
      let negative ← b.lineOf first.negate
      let b := b.push (.literal first) (.unitResolution (position + 1) lines)
      return b.conclude (.contradiction b.count negative)
  | .backtrack _ =>
    match b.outer with
    | [] => .error .noOpenCase
    | frame :: outer =>
      match b.frame.assumption, b.frame.bottom with
      | some first, some last =>
        .ok { b with frame := { frame with cases := frame.cases ++ [(first, last)] }, outer }
      | _, _ => .error .caseUnfinished
  | .exhausted _ _ =>
    let cases := b.frame.cases
    let b : Builder := { b with frame := { b.frame with cases := [] } }
    .ok (b.conclude (.caseAnalysis cases))

/-- Writes down a log. -/
def replayAll (clauses : List Clause) (b : Builder) :
    List Search.Event → Except ReplayFault Builder
  | [] => .ok b
  | event :: events => do replayAll clauses (← b.replay clauses event) events

/-- The derivation, if all cases are closed and falsity is reached. -/
def finish (b : Builder) : Except ReplayFault Derivation :=
  if b.outer = [] ∧ b.frame.bottom.isSome then .ok ⟨b.steps.reverse⟩ else .error .searchUnfinished

end Builder

/-- The derivation that a log gives from given premises. -/
def Derivation.ofLog (premises : List (Clause × Justification)) (events : List Search.Event) :
    Except ReplayFault Derivation := do
  let given := premises.foldl (fun b (c, why) => b.push (.clause c) why) Builder.start
  let b ← given.replayAll (premises.map (·.1)) events
  b.finish

/-- The clauses that come from the given propositions only, each with its provenance as a
justification. -/
def Encoding.premises (e : Encoding) (arg : Argument) (members : List Nat) :
    List (Clause × Justification) :=
  (e.clauses.filter fun c => c.tags.all (· ∈ members)).map fun c =>
    (c.clause, .premise (c.tags.filterMap fun i => (arg.propositions[i]?).map (·.id)) c.source)

/-- The derivation of a contradiction from given propositions of an argument, and what it leaves of
the budget. -/
def Derivation.construct (e : Encoding) (arg : Argument) (members : List Nat) (budget : Budget) :
    Except DerivationError Derivation × Budget :=
  let premises := e.premises arg members
  let result := Search.solve ⟨true, true⟩ e.table.size (premises.map (·.1)) budget
  match result.outcome with
  | .satisfiable _ => (.error .satisfiable, result.budget)
  | .unknown reason => (.error (.exhausted reason), result.budget)
  | .unsatisfiable _ => ((Derivation.ofLog premises result.trace).mapError .replay, result.budget)

end Elenchus
