import Elenchus.Argument.Validation
import Elenchus.Graph.Adjacency
import Elenchus.Order.NatSet

/-!
# The graph of an argument

The propositions of an argument are the nodes, by their position, and its relationships are the
edges.  No edge is dropped or merged: edges may run in parallel, in opposite directions, and from a
node to itself.  Each analysis looks at the edges through a view of its own:

* the edges that leave a node and those that enter it, in order;
* the nodes before a node, each once and without the node itself;
* the chain of reasons, a directed graph with each edge once and no loops;
* the undirected graph of all edges, which keeps parallel edges and has no loops.
-/

namespace Elenchus

/-- A relationship between propositions given by their positions. -/
structure Edge where
  source : Nat
  target : Nat
  kind : RelationshipKind
  strength : Strength
  /-- The position of the relationship. -/
  relationship : Nat
deriving DecidableEq, Repr

namespace Edge

def isLoop (e : Edge) : Bool := e.source == e.target

def isSupport (e : Edge) : Bool := e.kind == .supports

end Edge

/-- An argument with its relationships as edges. -/
structure ArgumentGraph where
  argument : Argument
  edges : List Edge
deriving DecidableEq, Repr

/-- The edge of a relationship, if both its ends are propositions of the argument. -/
def Argument.edge? (arg : Argument) (r : Relationship) (position : Nat) : Option Edge := do
  let source ← arg.indexOf? r.fromId
  let target ← arg.indexOf? r.toId
  return ⟨source, target, r.kind, r.strength, position⟩

def Argument.graph (arg : Argument) : ArgumentGraph :=
  ⟨arg, arg.relationships.zipIdx.filterMap fun (r, i) => arg.edge? r i⟩

namespace ArgumentGraph

def size (g : ArgumentGraph) : Nat := g.argument.size

def nodes (g : ArgumentGraph) : List Nat := List.range g.size

def propositions (g : ArgumentGraph) : List (Proposition × Nat) := g.argument.propositions.zipIdx

def proposition? (g : ArgumentGraph) (v : Nat) : Option Proposition := g.argument.propositions[v]?

def isKind (g : ArgumentGraph) (kind : PropositionKind) (v : Nat) : Bool :=
  (g.proposition? v).any (·.kind == kind)

/-- The identifiers of nodes, in the given order. -/
def ids (g : ArgumentGraph) (vs : List Nat) : List PropositionId :=
  (vs.filterMap g.proposition?).map (·.id)

/-- The text that stands for a node. -/
def label (g : ArgumentGraph) (v : Nat) : String :=
  (g.proposition? v).elim "" Proposition.displayText

/-- The texts of nodes, in quotes. -/
def quotedLabels (g : ArgumentGraph) (vs : List Nat) : List String :=
  vs.map fun v => "\"" ++ g.label v ++ "\""

/-! ## Views -/

/-- For each node the positions of the edges that have it as the given end.  The edges are gone
through once, and the position of each is put behind those in the row of its end. -/
def positionRows (g : ArgumentGraph) (endOf : Edge → Nat) : Array (List Nat) :=
  g.edges.zipIdx.foldl (fun rows (e, i) => rows.modify (endOf e) (· ++ [i]))
    (Array.replicate g.size [])

/-- The positions of the edges that leave a node. -/
def outgoing (g : ArgumentGraph) (v : Nat) : List Nat := (g.positionRows Edge.source)[v]?.getD []

/-- The positions of the edges that enter a node. -/
def incoming (g : ArgumentGraph) (v : Nat) : List Nat := (g.positionRows Edge.target)[v]?.getD []

/-- The edges that leave a node, in order. -/
def leaving (g : ArgumentGraph) (v : Nat) : List Edge := g.edges.filter (·.source == v)

/-- The edges that enter a node, in order. -/
def entering (g : ArgumentGraph) (v : Nat) : List Edge := g.edges.filter (·.target == v)

/-- The nodes from which edges of some sort enter a node, in ascending order, loops apart. -/
def predecessors (g : ArgumentGraph) (sort : Edge → Bool) (v : Nat) : List Nat :=
  natSet (((g.entering v).filter fun e => !e.isLoop && sort e).map (·.source))

/-- The targets of supports and dependencies, in ascending order and each once, loops apart. -/
def supportChain (g : ArgumentGraph) : Adjacency :=
  .tabulate g.size fun v =>
    natSet (((g.leaving v).filter fun e => e.kind.isSupportChain && !e.isLoop).map (·.target))

/-- The neighbours of a node over edges of all kinds, one for each edge, loops apart. -/
def neighbours (g : ArgumentGraph) (v : Nat) : List Nat :=
  (g.edges.filter (!·.isLoop)).filterMap fun e =>
    if e.source = v then some e.target
    else if e.target = v then some e.source
    else none

/-- The neighbours of each node, in ascending order and one for each edge. -/
def undirected (g : ArgumentGraph) : Adjacency :=
  .tabulate g.size fun v => (g.neighbours v).mergeSort

end ArgumentGraph

end Elenchus
