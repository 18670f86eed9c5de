import Elenchus.Graph.Adjacency

/-!
# Distances

A graph is searched from a node by layers: first the node itself, then the nodes one step away, and
so on, each node in the layer where it is first met.  The layer of a node is its distance, the
length of a shortest walk to it; a node that is in no layer is not reached.

A node depends on another node if a shortest way between it and some third node leads through that
one.
-/

namespace Elenchus

/-- What a search has reached: the layers so far, and the distance of each node if it is known. -/
structure Layering where
  layers : List (List Nat)
  distances : Array (Option Nat)
deriving DecidableEq, Repr

namespace Layering

/-- The nodes in the order they were met. -/
def order (l : Layering) : List Nat := l.layers.flatten

/-- The distance of a node, if it is reached. -/
def distance? (l : Layering) (v : Nat) : Option Nat := l.distances[v]?.getD none

end Layering

namespace Adjacency

/-- Gives a distance to those of some nodes that have none yet: these nodes, in order, and all
distances. -/
def mark (d : Nat) : List Nat → Array (Option Nat) → List Nat × Array (Option Nat)
  | [], distances => ([], distances)
  | w :: ws, distances =>
    match distances[w]? with
    | some none =>
      let (others, marked) := mark d ws (distances.setIfInBounds w (some d))
      (w :: others, marked)
    | _ => mark d ws distances

/-- The layers from a given one on, at most `fuel` of them, the distances up to this layer being
known. -/
def layersFrom (g : Adjacency) : (fuel d : Nat) → List Nat → Array (Option Nat) → Layering
  | 0, _, _, distances => ⟨[], distances⟩
  | fuel + 1, d, layer, distances =>
    if layer = [] then ⟨[], distances⟩
    else
      let (next, marked) := mark (d + 1) (layer.flatMap g.targets) distances
      let rest := layersFrom g fuel (d + 1) next marked
      ⟨layer :: rest.layers, rest.distances⟩

/-- The layers around a node; a node outside the graph has none.  Every layer has a node of its own,
so there are no more layers than nodes. -/
def layering (g : Adjacency) (source : Nat) : Layering :=
  let (start, distances) := mark 0 [source] (Array.replicate g.size none)
  g.layersFrom g.size 0 start distances

/-- The distance of each node from a node. -/
def distances (g : Adjacency) (source : Nat) : Array (Option Nat) := (g.layering source).distances

/-- The length of a shortest walk from a node to another, if there is one. -/
def distance? (g : Adjacency) (source target : Nat) : Option Nat :=
  (g.layering source).distance? target

/-- Whether a shortest way from `s` to `t` leads through `via`, the distances from `via` and from
`s` being given. -/
def passes (fromVia fromS : Layering) (s t : Nat) : Bool :=
  match fromVia.distance? s, fromVia.distance? t with
  | some d, some e => fromS.distance? t == some (d + e)
  | _, _ => false

/-- The nodes that are an end of some shortest way through a node, in order.  Distances are taken
from the lesser end to the greater. -/
def dependents (g : Adjacency) (via : Nat) : List Nat :=
  let fromVia := g.layering via
  let others := g.nodes.filter (· ≠ via)
  let ends := others.map fun s =>
    let fromS := g.layering s
    (s, others.filter fun t => s < t && passes fromVia fromS s t)
  others.filter fun v => ends.any fun (s, ts) => (s == v && !ts.isEmpty) || ts.contains v

end Adjacency

end Elenchus
