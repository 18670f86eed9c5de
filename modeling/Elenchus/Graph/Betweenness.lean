import Elenchus.Budget
import Elenchus.Graph.Distance

/-!
# Betweenness

How much of the traffic of a graph passes through a node: over all pairs of other nodes, the part of
the shortest ways between them that pass through it.  Parallel edges are different ways.

From one source, the count of shortest ways to each node is added up along the layers.  Then the
share of each node is added up against the layers: a node that comes just before another on shortest
ways has the part of the ways to that one that run through it, of all that this one has.  Sources
are taken in turn, so that every pair is counted from both ends.

The computation is the same over all numbers that have the operations of `Scalar`; reports are in
floating point, where the order of the additions matters, and exact numbers say what is computed.
-/

namespace Elenchus

/-- Numbers that scores can be computed in. -/
class Scalar (α : Type) extends Add α, Mul α, Div α where
  ofNat : Nat → α
  less : α → α → Bool

instance : Scalar Float where
  ofNat := Float.ofNat
  less x y := x < y

instance : Scalar Rat where
  add := Rat.add
  mul := Rat.mul
  div := Rat.div
  ofNat n := Rat.ofInt n
  less := Rat.blt

namespace Scalar

/-- A number put into the range from zero to one. -/
def clamped {α : Type} [Scalar α] (x : α) : α :=
  if less x (ofNat 0) then ofNat 0 else if less (ofNat 1) x then ofNat 1 else x

end Scalar

namespace Adjacency

variable {α : Type} [Scalar α]

/-- A table of numbers with more added at a node. -/
def addAt (table : Array α) (v : Nat) (x : α) : Array α := table.modify v (· + x)

def entry (table : Array α) (v : Nat) : α := table[v]?.getD (Scalar.ofNat 0)

/-- The targets of a node that lie in the next layer, parallel edges repeated. -/
def onward (g : Adjacency) (l : Layering) (v : Nat) : List Nat :=
  let next := (l.distance? v).map (· + 1)
  (g.targets v).filter fun w => l.distance? w == next

/-- The count of shortest ways from the source of a layering to each node. -/
def wayCounts (g : Adjacency) (l : Layering) (source : Nat) : Array α :=
  l.order.foldl
    (fun counts v =>
      (g.onward l v).foldl (fun counts w => addAt counts w (entry counts v)) counts)
    ((Array.replicate g.size (Scalar.ofNat 0)).setIfInBounds source (Scalar.ofNat 1))

/-- The nodes just before each node on shortest ways, parallel edges repeated. -/
def precursors (g : Adjacency) (l : Layering) : Array (List Nat) :=
  l.order.foldl
    (fun rows v => (g.onward l v).foldl (fun rows w => rows.modify w (v :: ·)) rows)
    (Array.replicate g.size [])

/-- The share of each node in the ways from one source: over all other nodes, the part of the
shortest ways to them that pass through it. -/
def shares (g : Adjacency) (l : Layering) (source : Nat) : Array α :=
  let counts : Array α := g.wayCounts l source
  let before := g.precursors l
  l.order.foldr
    (fun w shares =>
      (before[w]?.getD []).foldl
        (fun shares v =>
          addAt shares v (entry counts v / entry counts w * (Scalar.ofNat 1 + entry shares w)))
        shares)
    (Array.replicate g.size (Scalar.ofNat 0))

/-- The shares from all sources, added up; a source has no share in its own ways. -/
def totals (g : Adjacency) : Array α :=
  g.nodes.foldl
    (fun totals source =>
      let l := g.layering source
      let shares : Array α := g.shares l source
      (l.order.filter (· ≠ source)).foldr
        (fun w totals => addAt totals w (entry shares w)) totals)
    (Array.replicate g.size (Scalar.ofNat 0))

/-- The betweenness of each node, as a part of the ordered pairs of other nodes.  With fewer than
three nodes there is no such pair, and nothing lies between. -/
def betweenness (g : Adjacency) : Array α :=
  if g.size < 3 then Array.replicate g.size (Scalar.ofNat 0)
  else
    let pairs : α := Scalar.ofNat ((g.size - 1) * (g.size - 2))
    g.totals.map fun total => Scalar.clamped (total / pairs)

/-- The betweenness of each node, unless the budget is spent.  It is asked before each source. -/
def betweennessWithin (g : Adjacency) (budget : Budget) : Except Exhaustion (Array α) :=
  match (budget.checkTimes g.size).1 with
  | some reason => .error reason
  | none => .ok g.betweenness

end Adjacency

end Elenchus
