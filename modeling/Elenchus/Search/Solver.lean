import Elenchus.Budget
import Elenchus.Search.Event

/-!
# Satisfiability search

The search splits on variables and backtracks.  At each node the clauses are scanned in order for
literals that are forced, again and again until nothing is forced any more (`propagate`); then the
literals that occur with one sign only are made true (`assignPure`); then a case is opened on the
variable that occurs most often (`branch?`).  A node that fails reopens the nearest split that has a
case left (`reopen`).

`step` is one node of the search and `run` repeats it.  Each node is charged to the budget, and what
the budget still grants is what `run` ends on.  The clauses found unit or falsified on the way are
kept: when the search fails they are unsatisfiable by themselves, for no other clause was ever used
to rule out a case.
-/

namespace Elenchus.Search

/-- How a search is done. -/
structure Options where
  /-- Whether literals that occur with one sign only are made true. -/
  pureLiterals : Bool := true
  logged : Bool := false
deriving DecidableEq, Repr

/-- The state inside a search. -/
structure State where
  trail : Trail
  /-- The positions of the clauses that forced a literal or were falsified. -/
  involved : List Nat
  /-- The log, the latest event first. -/
  events : List Event
deriving DecidableEq, Repr

/-- A case split that is open. -/
structure Split where
  /-- The literal of the first case. -/
  literal : Literal
  /-- The length of the trail before the split. -/
  mark : Nat
  /-- Whether the second case is the open one. -/
  negated : Bool
deriving DecidableEq, Repr

section
variable (options : Options)

namespace State

/-- A state with one more event in its log, if a log is kept. -/
def log (s : State) (event : Event) : State :=
  if options.logged then { s with events := event :: s.events } else s

/-- A state in which the clause at a position has been used. -/
def involve (s : State) (position : Nat) : State :=
  if position ∈ s.involved then s else { s with involved := position :: s.involved }

def force (s : State) (l : Literal) (position : Nat) : State :=
  ({ s with trail := s.trail.assign l }.involve position).log options (.propagation l position)

def fail (s : State) (position : Nat) : State :=
  (s.involve position).log options (.conflict position)

def decide (s : State) (l : Literal) (level : Nat) : State :=
  let s := s.log options (.decision l level)
  { s with trail := s.trail.assign l }

end State

/-! ## Propagation -/

/-- One scan of the clauses, each with its position: what is forced is made true at once.  The scan
stops at a falsified clause and then returns `false`. -/
def scan : List (Clause × Nat) → State → State × Bool
  | [], s => (s, true)
  | (c, position) :: rest, s =>
    match s.trail.status c with
    | .satisfied | .undecided => scan rest s
    | .unit l => scan rest (s.force options l position)
    | .falsified => (s.fail options position, false)

/-- Scans until a scan forces nothing; `false` if a clause is falsified. -/
def propagate (clauses : List (Clause × Nat)) (s : State) : State × Bool :=
  match scan options clauses s with
  | (after, false) => (after, false)
  | (after, true) =>
    if after.trail.unvalued < s.trail.unvalued then propagate clauses after else (after, true)
termination_by s.trail.unvalued

/-! ## Branching -/

/-- The unassigned literals of the clauses that are not satisfied, with repetitions. -/
def openLiterals (clauses : List (Clause × Nat)) (t : Trail) : List Literal :=
  (clauses.filter fun (c, _) => !t.satisfies c).flatMap fun (c, _) => t.unassigned c

/-- How often a variable occurs, with either sign. -/
structure Count where
  positive : Nat
  negative : Nat
deriving DecidableEq, Repr

def Count.add (count : Count) (positive : Bool) : Count :=
  if positive then { count with positive := count.positive + 1 }
  else { count with negative := count.negative + 1 }

/-- The count of the occurrences of each variable in a list of literals. -/
def occurrences (size : Nat) (literals : List Literal) : List Count :=
  (literals.foldl (fun counts l => counts.modify l.var (·.add l.positive))
    (Array.replicate size (⟨0, 0⟩ : Count))).toList

/-- The literals that occur while their negation does not. -/
def pureLiterals (counts : List Count) : List Literal :=
  counts.zipIdx.filterMap fun (count, v) =>
    if count.positive = 0 then if count.negative = 0 then none else some ⟨v, false⟩
    else if count.negative = 0 then some ⟨v, true⟩
    else none

/-- A literal that occurs with one sign only is made true. -/
def State.assignPure (level : Nat) (s : State) (l : Literal) : State :=
  { s with trail := s.trail.assign l }.log options (.pureLiteral l level)

/-- All literals that occur with one sign only are made true. -/
def assignPure (clauses : List (Clause × Nat)) (level : Nat) (s : State) : State :=
  (pureLiterals (occurrences s.trail.values.size (openLiterals clauses s.trail))).foldl
    (State.assignPure options level) s

def Count.total (count : Count) : Nat := count.positive + count.negative

/-- The variable that occurs most often, of the best one so far and one more; the earlier one if
both occur as often, and none if neither occurs. -/
def busiest (best : Option (Count × Nat)) (next : Count × Nat) : Option (Count × Nat) :=
  match best with
  | none => if 0 < next.1.total then some next else none
  | some top => if top.1.total < next.1.total then some next else some top

/-- The literal to branch on: of the variable that occurs most often, the first of those, the sign
it occurs with more often, the positive one if there is no such.  There is none when every clause is
satisfied. -/
def branch? (counts : List Count) : Option Literal :=
  (counts.zipIdx.foldl busiest none).map fun (count, v) => ⟨v, count.negative ≤ count.positive⟩

/-! ## The search -/

/-- What a node leads to. -/
inductive Node where
  | satisfied (s : State)
  /-- No case is left. -/
  | refuted (s : State)
  /-- The search goes on in another case. -/
  | next (splits : List Split) (s : State)

/-- A node that failed reopens the nearest split whose second case is left. -/
def reopen : List Split → State → Node
  | [], s => .refuted s
  | split :: outer, s =>
    let level := outer.length
    let s := { s with trail := s.trail.undo split.mark }.log options (.backtrack level)
    if split.negated then reopen outer (s.log options (.exhausted split.literal.var level))
    else
      .next ({ split with negated := true } :: outer)
        (s.decide options split.literal.negate (level + 1))

/-- One node of the search. -/
def step (clauses : List (Clause × Nat)) (splits : List Split) (s : State) : Node :=
  match propagate options clauses s with
  | (s, false) => reopen options splits s
  | (s, true) =>
    let level := splits.length
    let s := if options.pureLiterals then assignPure options clauses level s else s
    match branch? (occurrences s.trail.values.size (openLiterals clauses s.trail)) with
    | none => .satisfied s
    | some l => .next (⟨l, s.trail.length, false⟩ :: splits) (s.decide options l (level + 1))

end

/-- The answer of a search. -/
inductive Outcome where
  /-- An assignment that satisfies all clauses. -/
  | satisfiable (model : List Bool)
  /-- The positions of clauses that are unsatisfiable together, ascending. -/
  | unsatisfiable (refutation : List Nat)
  /-- The budget ended the search. -/
  | unknown (reason : Exhaustion)
deriving DecidableEq, Repr

/-- A finished search. -/
structure Result where
  outcome : Outcome
  /-- The log, the first event first. -/
  trace : List Event
  budget : Budget
deriving DecidableEq, Repr

/-- The search from a state on. -/
def run (options : Options) (clauses : List (Clause × Nat)) (splits : List Split) (s : State)
    (budget : Budget) : Result :=
  match h : budget.spend with
  | (some reason, budget) => ⟨.unknown reason, s.events.reverse, budget⟩
  | (none, after) =>
    have := Budget.remaining_lt_of_spend h
    match step options clauses splits s with
    | .satisfied s => ⟨.satisfiable s.trail.model, s.events.reverse, after⟩
    | .refuted s =>
      let involved := (List.range clauses.length).filter (· ∈ s.involved)
      ⟨.unsatisfiable involved, s.events.reverse, after⟩
    | .next splits s => run options clauses splits s after
termination_by budget.remaining

/-- The count of variables that the clauses speak of: one more than the greatest. -/
def variableBound (clauses : List Clause) : Nat :=
  (clauses.flatMap (·.literals)).foldl (fun bound l => max bound (l.var + 1)) 0

/-- Decides whether some assignment of at least `size` variables satisfies all clauses. -/
def solve (options : Options) (size : Nat) (clauses : List Clause) (budget : Budget) : Result :=
  run options clauses.zipIdx [] ⟨.start (max size (variableBound clauses)), [], []⟩ budget

end Elenchus.Search
