import Elenchus.Encoding
import Elenchus.Search.Solver

/-!
# Minimal cores

A set of propositions that contradict each other is shrunk until no proposition can be left out.
The search that found it unsatisfiable names clauses that are unsatisfiable by themselves; the
propositions of those clauses are tried first.  Then each proposition in turn is left out for good
if what remains is still unsatisfiable.
-/

namespace Elenchus

/-- The answer for what some propositions say by themselves. -/
structure MemberResult where
  outcome : Search.Outcome
  /-- The position in the encoding of each clause that was searched. -/
  positions : List Nat
  budget : Budget

namespace Encoding

/-- Decides whether what the given propositions say by themselves is satisfiable. -/
def solveMembers (e : Encoding) (members : List Nat) (budget : Budget) : MemberResult :=
  let restricted := e.restrict members
  let result := Search.solve {} e.table.size (restricted.map (·.1)) budget
  ⟨result.outcome, restricted.map (·.2), result.budget⟩

/-- The propositions of the clauses of a refutation, whose positions in the encoding are given. -/
def refuted (e : Encoding) (refutation positions : List Nat) : List Nat :=
  natSet ((refutation.filterMap (positions[·]?)).flatMap fun i =>
    (e.clauses[i]?).elim [] (·.tags))

/-- Whether the proposition has a clause among those of the given propositions. -/
def owns (e : Encoding) (members : List Nat) (member : Nat) : Bool :=
  e.clauses.any fun c => member ∈ c.tags && c.tags.all (· ∈ members)

/-- Leaves out each of the propositions in turn if the others of the core stay unsatisfiable.  One
without a clause of its own is left out at once. -/
def shrink (e : Encoding) (core : List Nat) (budget : Budget) :
    List Nat → Except Exhaustion (List Nat) × Budget
  | [] => (.ok core, budget)
  | member :: rest =>
    match budget.check with
    | some reason => (.error reason, budget.looked)
    | none =>
      let budget := budget.looked
      let others := core.filter (· ≠ member)
      if e.owns core member then
        let result := e.solveMembers others budget
        match result.outcome with
        | .unsatisfiable _ => e.shrink others result.budget rest
        | .satisfiable _ => e.shrink core result.budget rest
        | .unknown reason => (.error reason, result.budget)
      else e.shrink others budget rest

/-- Where the shrinking starts: the propositions of the refutation, if they are unsatisfiable by
themselves, else all. -/
def seed (e : Encoding) (members refutation positions : List Nat) (budget : Budget) :
    Except Exhaustion (List Nat) × Budget :=
  let named := e.refuted refutation positions
  if named = [] ∨ named = members then (.ok members, budget)
  else
    let result := e.solveMembers named budget
    match result.outcome with
    | .unsatisfiable _ => (.ok named, result.budget)
    | .satisfiable _ => (.ok members, result.budget)
    | .unknown reason => (.error reason, result.budget)

/-- A subset of unsatisfiable propositions from which none can be left out.  The refutation and the
positions are those of the search that found the propositions unsatisfiable. -/
def minimalCore (e : Encoding) (members refutation positions : List Nat) (budget : Budget) :
    Except Exhaustion (List Nat) × Budget :=
  match e.seed members refutation positions budget with
  | (.error reason, budget) => (.error reason, budget)
  | (.ok start, budget) =>
    let core := start.filter (· ∈ e.contributing)
    e.shrink core budget core

end Encoding

end Elenchus
