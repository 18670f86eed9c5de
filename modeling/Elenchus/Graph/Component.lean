import Elenchus.Graph.Adjacency
import Elenchus.Graph.Marks

/-!
# Components

Two nodes are in one component when each leads to the other.  The component of a node is taken among
the nodes that are not below it: what the node leads to over such nodes, as far as that leads back.

Nodes are marked as they are met, and each is gone through once (`sweep`).
-/

namespace Elenchus

namespace Adjacency

/-- The graph with all edges turned round, each once and without the loops. -/
def reverse (g : Adjacency) : Adjacency :=
  tabulate g.size fun v => g.nodes.filter fun w => w ≠ v && v ∈ g.targets w

/-- A node that is met: unless it is below the least one or marked already, it is marked, and is
still to be gone through. -/
def discover (least : Nat) (front : List Nat × Marks) (w : Nat) : List Nat × Marks :=
  if least ≤ w ∧ w < front.2.size ∧ front.2.has w = false then (w :: front.1, front.2.mark w)
  else front

/-- The targets of a node are met in turn. -/
def explore (g : Adjacency) (least v : Nat) (front : List Nat × Marks) : List Nat × Marks :=
  (g.targets v).foldl (discover least) front

/-- What is still to be marked and what is still to be gone through are as many as before. -/
theorem free_explore (g : Adjacency) (least v : Nat) (front : List Nat × Marks) :
    (g.explore least v front).2.free + (g.explore least v front).1.length =
      front.2.free + front.1.length := by
  unfold explore
  induction g.targets v generalizing front with
  | nil => rfl
  | cons w ws ih =>
    rw [List.foldl_cons, ih]
    unfold discover
    split
    next h =>
      have := Marks.free_mark h.2.1 h.2.2
      simp only [List.length_cons]
      omega
    next => rfl

/-- The marks once all that the pending nodes lead to is marked, nodes below the least one apart. -/
def sweep (g : Adjacency) (least : Nat) : List Nat → Marks → Marks
  | [], marks => marks
  | v :: pending, marks =>
    let front := g.explore least v (pending, marks)
    sweep g least front.1 front.2
termination_by pending marks => marks.free + pending.length
decreasing_by
  exact Nat.lt_succ_of_le (Nat.le_of_eq (free_explore g least v (pending, marks)))

/-- What a node leads to over nodes that are not below it. -/
def reached (g : Adjacency) (start : Nat) : Marks :=
  g.sweep start [start] ((Marks.none g.size).mark start)

/-- The nodes, none below the given one, that it leads to and that lead to it. -/
def component (g reversed : Adjacency) (start : Nat) : Marks :=
  (g.reached start).meet (reversed.reached start)

end Adjacency

end Elenchus
