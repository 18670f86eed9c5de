import Elenchus.Budget
import Elenchus.Graph.Component
import Elenchus.Order.NatSet

/-!
# Cycles

An elementary cycle is a closed walk that meets no node twice.  Each is written from its lowest
node.  The cycles of a graph are listed by their first node, and among those of one first node in
the order in which a path is extended along the rows of targets.  Their length is bounded, and so is
their count.

The search from a first node stays in its component, and it blocks nodes.  A node on the path is
blocked; it stays so when the path has left it and no way on from it was found, and then it waits
for each of its targets: it is unblocked as soon as one of them is (`CycleState.unblock`).  So no
node is entered twice in vain.  Where the path may not get longer, the node beyond counts as one
from which there is a way on: what lies there was not looked at.

Nothing is entered twice on one path, so a loop is not followed.  But where the first node of a
search has a loop and lies on a longer cycle of nodes not below it, the loop closes the path of that
one node.
-/

namespace Elenchus

/-- What a search for cycles has found. -/
structure CycleSearch where
  cycles : List (List Nat)
  /-- Whether the bound on the count of cycles was reached. -/
  truncated : Bool
  /-- Why the search stopped early, if it did. -/
  exhausted : Option Exhaustion
deriving DecidableEq, Repr

/-- Whether all cycles within the bounds were found. -/
def CycleSearch.isComplete (s : CycleSearch) : Bool := !s.truncated && s.exhausted.isNone

/-- The state inside a search for cycles. -/
structure CycleState where
  /-- The nodes that may not be entered. -/
  blocked : Marks
  /-- The nodes that wait for each node, ascending. -/
  waiting : Array (List Nat)
  cycles : Array (List Nat)
  truncated : Bool
  budget : Budget
deriving DecidableEq, Repr

namespace CycleState

/-- No node is blocked and none waits. -/
def start (size : Nat) (budget : Budget) : CycleState :=
  ⟨.none size, Array.replicate size [], #[], false, budget⟩

/-- The state for a new first node: what was found stays, and no node is blocked. -/
def reset (s : CycleState) : CycleState :=
  { s with blocked := .none s.blocked.size, waiting := Array.replicate s.blocked.size [] }

def looked (s : CycleState) : CycleState := { s with budget := s.budget.looked }

def block (s : CycleState) (v : Nat) : CycleState := { s with blocked := s.blocked.mark v }

/-- The nodes that wait for a node. -/
def waiters (s : CycleState) (v : Nat) : List Nat := s.waiting.getD v []

/-- How many entries the waiting nodes make. -/
def entries (s : CycleState) : Nat := s.waiting.toList.flatten.length

/-- One blocked node released: nothing waits for it any more. -/
def release (s : CycleState) (v : Nat) : CycleState :=
  { s with blocked := s.blocked.unmark v, waiting := s.waiting.setIfInBounds v [] }

theorem length_flatten_set (rows : List (List Nat)) (v : Nat) :
    (rows.set v []).flatten.length + (rows.getD v []).length = rows.flatten.length := by
  induction rows generalizing v with
  | nil => rfl
  | cons row rows ih =>
    cases v with
    | zero => simp [Nat.add_comm]
    | succ v =>
      have := ih v
      simp only [List.set_cons_succ, List.flatten_cons, List.length_append, List.getD_cons_succ]
      omega

/-- The nodes that waited for a released node are struck off. -/
theorem entries_release (s : CycleState) (v : Nat) :
    (s.release v).entries + (s.waiters v).length = s.entries := by
  have hwaiters : s.waiters v = s.waiting.toList.getD v [] := by
    simp [waiters, Array.getD_eq_getD_getElem?, List.getD_eq_getElem?_getD]
  rw [hwaiters, entries, release, Array.toList_setIfInBounds]
  exact length_flatten_set s.waiting.toList v

/-- Unblocks the pending nodes, and with each node those that wait for it. -/
def unblock (s : CycleState) : List Nat → CycleState
  | [] => s
  | v :: pending =>
    if s.blocked.has v then (s.release v).unblock ((s.waiters v).reverse ++ pending)
    else s.unblock pending
termination_by pending => s.entries + pending.length
decreasing_by
  · have := s.entries_release v
    simp only [List.length_append, List.length_reverse, List.length_cons]
    omega
  · exact Nat.lt_succ_self _

/-- The node waits for each of some others. -/
def wait (s : CycleState) (v : Nat) (targets : List Nat) : CycleState :=
  { s with waiting := targets.foldl (fun rows w => rows.modify w (insertNat v)) s.waiting }

/-- One more cycle; `limit` bounds their count. -/
def found (s : CycleState) (limit : Nat) (cycle : List Nat) : CycleState :=
  let cycles := s.cycles.push cycle
  { s with cycles, truncated := s.truncated || limit ≤ cycles.size }

end CycleState

namespace Adjacency

section
variable (component : Marks) (start limit : Nat)

/-- Goes on from the end of a path to each of its targets in turn.  `path` is written from its end,
`descend` enters a node, and `closed` tells whether a way on was found before.  The answer tells
whether one was found at all. -/
def along (descend : Nat → CycleState → Except Exhaustion Bool × CycleState) (path : List Nat) :
    List Nat → (closed : Bool) → CycleState → Except Exhaustion Bool × CycleState
  | [], closed, s => (.ok closed, s)
  | next :: rest, closed, s =>
    if s.truncated then (.ok closed, s)
    else if !component.has next then along descend path rest closed s
    else if next = start then along descend path rest true (s.found limit path.reverse)
    else if s.blocked.has next then along descend path rest closed s
    else
      match descend next s with
      | (.error reason, s) => (.error reason, s)
      | (.ok below, s) => along descend path rest (closed || below) s

/-- Enters a node at the end of a path that may get longer by at most `room` nodes, and finds all
cycles that extend the path so.  The answer tells whether there is a way on from the node, as far as
one was looked for. -/
def circuit (g : Adjacency) : (room : Nat) → (path : List Nat) → (v : Nat) → CycleState →
    Except Exhaustion Bool × CycleState
  | 0, _, _, s => (.ok true, s)
  | room + 1, path, v, s =>
    match s.budget.check with
    | some reason => (.error reason, s.looked)
    | none =>
      match along component start limit (g.circuit room (v :: path)) (v :: path) (g.targets v) false
        (s.looked.block v) with
      | (.error reason, s) => (.error reason, s)
      | (.ok true, s) => (.ok true, s.unblock [v])
      | (.ok false, s) => (.ok false, s.wait v ((g.targets v).filter component.has))

end

/-- Searches from each of some first nodes, until a bound is reached. -/
def circuits (g reversed : Adjacency) (maxLength limit : Nat) :
    List Nat → CycleState → Option Exhaustion × CycleState
  | [], s => (none, s)
  | start :: rest, s =>
    let component := g.component reversed start
    if component.count < 2 then g.circuits reversed maxLength limit rest s
    else
      match g.circuit component start limit maxLength [] start s.reset with
      | (.error reason, s) => (some reason, s)
      | (.ok _, s) => if s.truncated then (none, s) else g.circuits reversed maxLength limit rest s

/-- Searches for the cycles of at most `maxLength` nodes, at most `maxCount` of them, and tells what
is left of the budget.  It is asked at each node that is entered. -/
def searchCycles (g : Adjacency) (maxLength maxCount : Nat) (budget : Budget) :
    CycleSearch × Budget :=
  if maxLength < 2 ∨ maxCount = 0 then (⟨[], false, none⟩, budget)
  else
    let (exhausted, s) :=
      g.circuits g.reverse maxLength maxCount g.nodes (.start g.size budget)
    (⟨s.cycles.toList, s.truncated, exhausted⟩, s.budget)

/-- The cycles of at most `maxLength` nodes, at most `maxCount` of them. -/
def findCycles (g : Adjacency) (maxLength maxCount : Nat) (budget : Budget) : CycleSearch :=
  (g.searchCycles maxLength maxCount budget).1

end Adjacency

end Elenchus
