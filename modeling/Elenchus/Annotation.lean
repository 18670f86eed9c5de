import Elenchus.Graph.Basic
import Elenchus.Graph.Betweenness

/-!
# Annotations

Each proposition is annotated with what the analyses found about it, and with a score between zero
and one.  Support raises the score, with less and less effect; each contradiction and each
vulnerable assumption lowers it; being in the middle of the argument raises it a little.

An assumption is vulnerable if it bears the load and nothing supports it.
-/

namespace Elenchus

/-- What was found about one proposition. -/
structure Annotation where
  proposition : PropositionId
  centrality : Float
  loadBearing : Bool
  /-- The count of supports. -/
  evidencePaths : Nat
  /-- The count of contradictions whose core it belongs to. -/
  contradictions : Nat
  /-- The vulnerable assumptions next to it. -/
  vulnerable : List PropositionId
  score : Float

namespace Annotation

/-- What a contradiction takes off a score. -/
def contradictionPenalty : Float := 0.3

/-- What a vulnerable assumption takes off a score. -/
def vulnerablePenalty : Float := 0.2

/-- How much of its betweenness a proposition gains. -/
def centralityBonus : Float := 0.1

/-- The score of a proposition by its supports, its contradictions, the vulnerable assumptions next
to it and its betweenness. -/
def scoreOf (evidence contradictions vulnerable : Nat) (centrality : Float) : Float :=
  let e := Float.ofNat evidence
  Scalar.clamped
    (e / (e + 1) - contradictionPenalty * Float.ofNat contradictions
      - vulnerablePenalty * Float.ofNat vulnerable + centralityBonus * centrality)

end Annotation

namespace ArgumentGraph

/-- Whether an edge links a proposition with what it rests on. -/
def isReliance (e : Edge) : Bool := e.kind == .dependsOn || e.kind == .assumes

/-- The nodes that bear the load without support and are linked with a node by what one rests on the
other for, in order. -/
def vulnerableNeighbours (g : ArgumentGraph) (loadBearing : Nat → Bool) (v : Nat) : List Nat :=
  let linked := ((g.leaving v).filter isReliance).map (·.target)
    ++ ((g.entering v).filter isReliance).map (·.source)
  natSet (linked.filter fun u =>
    u != v && loadBearing u && !(g.entering u).any (·.isSupport))

/-- The annotation of the proposition at a node. -/
def annotation (g : ArgumentGraph) (centrality : Array Float) (loadBearing : Nat → Bool)
    (cores : List (List PropositionId)) (p : Proposition) (v : Nat) : Annotation :=
  let evidence := ((g.entering v).filter (·.isSupport)).length
  let contradictions := cores.countP (p.id ∈ ·)
  let vulnerable := g.vulnerableNeighbours loadBearing v
  let score := Adjacency.entry centrality v
  { proposition := p.id
    centrality := score
    loadBearing := loadBearing v
    evidencePaths := evidence
    contradictions
    vulnerable := g.ids vulnerable
    score := Annotation.scoreOf evidence contradictions vulnerable.length score }

/-- The annotation of each proposition, in order. -/
def annotate (g : ArgumentGraph) (centrality : Array Float) (loadBearing : Nat → Bool)
    (cores : List (List PropositionId)) : List Annotation :=
  g.propositions.map fun (p, v) => g.annotation centrality loadBearing cores p v

end ArgumentGraph

end Elenchus
