import Elenchus.Graph.Basic

/-!
# Dependency order

The propositions are listed such that each comes after those that it depends on.  Of those that are
ready the first in the argument comes next.  What lies on a cycle of dependencies, or behind one,
never becomes ready and is left out.

For each node the dependencies that are not listed yet are counted.  Listing a node takes its edges
off the counts, and a node whose count comes down to zero is ready.
-/

namespace Elenchus

namespace ArgumentGraph

/-- What is known when some nodes are listed. -/
structure OrderState where
  /-- The nodes that may be listed next, in ascending order. -/
  ready : List Nat
  /-- For each node, the dependencies into it from nodes that are not listed. -/
  waiting : Array Nat
deriving DecidableEq, Repr

/-- The targets of the dependencies of a node, parallel edges repeated. -/
def dependencyTargets (g : ArgumentGraph) (v : Nat) : List Nat :=
  ((g.leaving v).filter (·.kind.isDependency)).map (·.target)

/-- The count of dependencies into a node. -/
def dependencyCount (g : ArgumentGraph) (v : Nat) : Nat :=
  (g.entering v).countP (·.kind.isDependency)

/-- Takes one dependency into a node off its count. -/
def OrderState.release (s : OrderState) (w : Nat) : OrderState :=
  let waiting := s.waiting.modify w (· - 1)
  ⟨if waiting[w]? = some 0 then insertNat w s.ready else s.ready, waiting⟩

/-- The nodes that are listed from a state on, at most `fuel` of them. -/
def orderFrom (g : ArgumentGraph) : (fuel : Nat) → OrderState → List Nat
  | 0, _ => []
  | fuel + 1, s =>
    match s.ready with
    | [] => []
    | v :: ready =>
      v :: g.orderFrom fuel ((g.dependencyTargets v).foldl OrderState.release { s with ready })

/-- The state in which nothing is listed. -/
def orderStart (g : ArgumentGraph) : OrderState :=
  ⟨g.nodes.filter (g.dependencyCount · = 0), (g.nodes.map g.dependencyCount).toArray⟩

/-- The nodes in dependency order; no node is listed twice, so there are at most as many as nodes.
-/
def dependencyOrder (g : ArgumentGraph) : List Nat := g.orderFrom g.size g.orderStart

end ArgumentGraph

end Elenchus
