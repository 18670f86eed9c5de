import Elenchus.Contradiction.Core

/-!
# The search for contradictions

A whole argument is decided, and while it is unsatisfiable a minimal core is taken out of it, up to
a given number of cores.  So the cores have no proposition in common.  What was found before the
budget ran out is kept.
-/

namespace Elenchus

/-- Whether an argument can be true as a whole. -/
inductive Satisfiability where
  | sat
  | unsat
  | unknown
deriving DecidableEq, Repr

def Satisfiability.name : Satisfiability → String
  | .sat => "sat"
  | .unsat => "unsat"
  | .unknown => "unknown"

/-- What a search for contradictions has found. -/
structure ContradictionSearch where
  satisfiability : Satisfiability
  /-- The cores, as sets of positions of propositions. -/
  cores : List (List Nat)
  /-- Why the search stopped early, if it did. -/
  exhausted : Option Exhaustion
deriving DecidableEq, Repr

namespace Encoding

/-- Takes cores out of the active propositions until what is left can be satisfied, `limit` cores
are found, or the budget is spent.  The search over the active propositions is done already;
`search` is what was found before it. -/
def takeCores (e : Encoding) (limit : Nat) (active : List Nat) (found : MemberResult)
    (search : ContradictionSearch) : ContradictionSearch × Budget :=
  match found.outcome with
  | .satisfiable _ => (search, found.budget)
  | .unknown reason =>
    -- Once a core is known, so is the answer for the whole.
    let answer := if search.cores = [] then .unknown else search.satisfiability
    ({ search with satisfiability := answer, exhausted := some reason }, found.budget)
  | .unsatisfiable refutation =>
    if limit ≤ search.cores.length then ({ search with satisfiability := .unsat }, found.budget)
    else
      match e.minimalCore active refutation found.positions found.budget with
      | (.error reason, budget) =>
        ({ search with satisfiability := .unsat, exhausted := some reason }, budget)
      | (.ok core, budget) =>
        let rest := active.filter (· ∉ core)
        if limit ≤ search.cores.length + 1 then
          ({ search with satisfiability := .unsat, cores := search.cores ++ [core] }, budget)
        else
          e.takeCores limit rest (e.solveMembers rest budget)
            { search with satisfiability := .unsat, cores := search.cores ++ [core] }
termination_by limit - search.cores.length
decreasing_by
  simp only [List.length_append, List.length_singleton]
  omega

/-- Decides the whole encoding and takes out up to `limit` cores. -/
def findContradictions (e : Encoding) (budget : Budget) (limit : Nat) :
    ContradictionSearch × Budget :=
  e.takeCores limit e.members (e.solveMembers e.members budget) ⟨.sat, [], none⟩

end Encoding

end Elenchus
