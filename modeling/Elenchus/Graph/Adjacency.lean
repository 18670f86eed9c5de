/-!
# Adjacency

A directed graph on the nodes `0`, `1`, … is given by the targets of each node.  The targets are
kept as they come: in any order, repeated where edges run in parallel, and with the node itself
where there is a loop.  What lies outside the graph has no targets.

`Adjacency.Walk` says which nodes a node leads to, and in how many steps; it is what searches over a
graph are measured by.
-/

namespace Elenchus

/-- A directed graph by the targets of each node. -/
structure Adjacency where
  rows : Array (List Nat)
deriving DecidableEq, Repr

namespace Adjacency

/-- The graph with the given rows of targets. -/
def ofRows (rows : List (List Nat)) : Adjacency := ⟨rows.toArray⟩

def toRows (g : Adjacency) : List (List Nat) := g.rows.toList

def size (g : Adjacency) : Nat := g.rows.size

def nodes (g : Adjacency) : List Nat := List.range g.size

/-- The targets of a node, in order. -/
def targets (g : Adjacency) (v : Nat) : List Nat := g.rows[v]?.getD []

/-- The graph whose row at each of `n` nodes is computed from the node. -/
def tabulate (n : Nat) (row : Nat → List Nat) : Adjacency := ofRows ((List.range n).map row)

/-- A walk along edges of the graph, by its count of steps. -/
inductive Walk (g : Adjacency) : Nat → Nat → Nat → Prop
  | stay (v : Nat) : Walk g v 0 v
  | step {v w k u : Nat} : w ∈ g.targets v → Walk g w k u → Walk g v (k + 1) u

theorem size_ofRows (rows : List (List Nat)) : (ofRows rows).size = rows.length := by
  simp [ofRows, size]

theorem targets_ofRows (rows : List (List Nat)) (v : Nat) :
    (ofRows rows).targets v = rows[v]?.getD [] := by
  simp [ofRows, targets]

theorem size_tabulate (n : Nat) (row : Nat → List Nat) : (tabulate n row).size = n := by
  simp [tabulate, size_ofRows]

theorem targets_tabulate {n v : Nat} (row : Nat → List Nat) (h : v < n) :
    (tabulate n row).targets v = row v := by
  simp [tabulate, targets_ofRows, h]

theorem targets_eq_nil {g : Adjacency} {v : Nat} (h : g.size ≤ v) : g.targets v = [] := by
  have : g.rows[v]? = none := Array.getElem?_eq_none h
  simp [targets, this]

theorem lt_size_of_mem_targets {g : Adjacency} {v w : Nat} (h : w ∈ g.targets v) : v < g.size := by
  refine Nat.lt_of_not_le fun hle => ?_
  rw [targets_eq_nil hle] at h
  cases h

end Adjacency

end Elenchus
