import Elenchus.Decimal.Fixed
import Elenchus.Fallacy.Basic
import Elenchus.Formula.Parser
import Elenchus.Graph.Basic
import Elenchus.Graph.Betweenness

/-!
# The rules for fallacies

Each rule has two halves: which nodes of the graph show the pattern, in order, and how a fallacy is
recorded for each of them.

* Reasoning is circular along a cycle of reasons.
* A claim that is held with high confidence is hasty if at most one piece of evidence supports it.
* A proposition whose expression is a disjunction of two, and that exactly two reasons lead to, is a
  false dilemma.
* An assumption bears the load if its betweenness is above a threshold.
-/

namespace Elenchus

namespace ArgumentGraph

/-! ## Circular reasoning -/

/-- A list that ends as it begins. -/
def closedPath {α : Type} (path : List α) : List α := path ++ path.take 1

def circularText (g : ArgumentGraph) (cycle : List Nat) : String :=
  "A circular dependency was detected: "
    ++ " → ".intercalate (closedPath (g.quotedLabels cycle))
    ++ " form a loop in which each proposition ultimately rests on itself, leaving the argument"
    ++ " without an independent foundation."

/-- One fallacy for each cycle. -/
def circularReasoning (g : ArgumentGraph) (cycles : List (List Nat)) : List Fallacy :=
  cycles.zipIdx.map fun (cycle, i) =>
    { finding := .circular (closedPath (g.ids cycle))
      number := i + 1
      description := g.circularText cycle
      affected := g.ids cycle }

/-! ## Hasty generalizations -/

/-- The pieces of evidence that support a node. -/
def evidence (g : ArgumentGraph) (v : Nat) : List Nat :=
  g.predecessors (fun e => e.isSupport && g.isKind .evidence e.source) v

/-- The claims held with high confidence on at most one piece of evidence. -/
def hastyClaims (g : ArgumentGraph) : List Nat :=
  (g.propositions.filter fun (p, v) =>
    p.kind == .claim && p.confidence == .high && (g.evidence v).length ≤ 1).map (·.2)

def hastyText (g : ArgumentGraph) (v : Nat) : String :=
  let backing := match g.quotedLabels (g.evidence v) with
    | label :: _ => "a single piece of evidence, " ++ label
    | [] => "no evidence at all"
  "The claim \"" ++ g.label v ++ "\" is asserted with certainty but rests on " ++ backing
    ++ ". Conclusions held this firmly need several independent lines of evidence."

/-- One fallacy for each hasty claim. -/
def hastyGeneralizations (g : ArgumentGraph) : List Fallacy :=
  g.hastyClaims.zipIdx.map fun (v, i) =>
    { finding := .hastyGeneralization
      number := i + 1
      description := g.hastyText v
      affected := g.ids (v :: g.evidence v) }

/-! ## False dilemmas -/

/-- Whether an expression is a disjunction of exactly two parts. -/
def isEitherOr (expression : String) : Bool :=
  match Formula.parse expression with
  | .ok f => f.disjuncts.length == 2
  | .error _ => false

/-- The nodes that supports and dependencies lead from to a node, one for each edge, loops apart. -/
def feeders (g : ArgumentGraph) (v : Nat) : List Nat :=
  ((g.entering v).filter fun e => e.kind.isSupportChain && !e.isLoop).map (·.source)

/-- The propositions that offer two options and are fed by two edges, with their expressions. -/
def dilemmas (g : ArgumentGraph) : List (Nat × String) :=
  g.propositions.filterMap fun (p, v) => do
    let expression ← p.formalExpression
    if (g.feeders v).length == 2 && isEitherOr expression then some (v, expression) else none

def dilemmaText (g : ArgumentGraph) (v : Nat) (expression : String) : String :=
  "\"" ++ g.label v ++ "\" frames the question as exactly two options ("
    ++ Text.trimmed expression ++ "), excluding any alternative or middle ground."

/-- One fallacy for each dilemma. -/
def falseDilemmas (g : ArgumentGraph) : List Fallacy :=
  g.dilemmas.zipIdx.map fun ((v, expression), i) =>
    { finding := .falseDilemma
      number := i + 1
      description := g.dilemmaText v expression
      affected := g.ids ((v :: g.feeders v).eraseDups) }

/-! ## Load-bearing assumptions -/

/-- The entry of a node in a table of betweenness. -/
def centralityAt (centrality : Array Float) (v : Nat) : Float := Adjacency.entry centrality v

/-- The assumptions whose betweenness is above a threshold. -/
def loadBearing (g : ArgumentGraph) (centrality : Array Float) (threshold : Float) : List Nat :=
  (g.propositions.filter fun (p, v) =>
    p.kind == .assumption && threshold < centralityAt centrality v).map (·.2)

/-- The wording for an assumption that bears the load for some others. -/
def loadBearingText (g : ArgumentGraph) (v : Nat) (centrality : Float) (dependents : Nat) :
    String :=
  "The assumption \"" ++ g.label v ++ "\" lies on " ++ Decimal.fixed 0 (centrality * 100)
    ++ "% of the shortest paths through the argument; " ++ toString dependents
    ++ " other proposition(s) are connected only through it."

/-- One fallacy for each load-bearing assumption, over the undirected graph. -/
def loadBearingAssumptions (g : ArgumentGraph) (adjacency : Adjacency) (centrality : Array Float)
    (threshold : Float) : List Fallacy :=
  (g.loadBearing centrality threshold).zipIdx.map fun (v, i) =>
    let dependents := adjacency.dependents v
    let score := centralityAt centrality v
    { finding := .loadBearing (g.ids dependents) score
      number := i + 1
      description := g.loadBearingText v score dependents.length
      affected := g.ids [v] }

end ArgumentGraph

end Elenchus
