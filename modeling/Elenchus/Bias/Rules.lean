import Elenchus.Bias.Basic
import Elenchus.Bias.Subject
import Elenchus.Graph.Basic
import Elenchus.Graph.Betweenness

/-!
# The rules for biases

As with fallacies, each rule says which nodes show a pattern and how a bias is recorded for each.
Only the shape of the argument is looked at, never the statements.

* An assumption that is stated as an absolute and not supported is an anchor.
* A claim with two supports or more and nothing against it shows only what confirms it.
* A claim that the argument rests on, held with high confidence, is a plan without a plan if it has
  neither dependencies nor a constraint or a risk that bears on it.
* A claim whose support is about other subjects altogether may have been replaced by an easier one.
-/

namespace Elenchus

namespace ArgumentGraph

/-- The edges that support a node, in order. -/
def supports (g : ArgumentGraph) (v : Nat) : List Edge := (g.entering v).filter (·.isSupport)

def severityAt (centrality : Array Float) (v : Nat) : BiasSeverity :=
  .ofCentrality (Adjacency.entry centrality v)

/-! ## Anchoring -/

/-- The assumptions stated as absolutes that nothing supports. -/
def anchors (g : ArgumentGraph) : List Nat :=
  (g.propositions.filter fun (p, v) =>
    p.kind == .assumption && p.confidence == .unstatedAsAbsolute && (g.supports v).isEmpty).map
    (·.2)

def anchorText (g : ArgumentGraph) (v : Nat) : String :=
  "The assumption \"" ++ g.label v ++ "\" is stated as an absolute with nothing supporting it."
    ++ " Later reasoning adjusts relative to this anchor instead of testing it; consider what"
    ++ " evidence would verify it."

/-- One bias for each anchor. -/
def anchoring (g : ArgumentGraph) (centrality : Array Float) : List Bias :=
  g.anchors.zipIdx.map fun (v, i) =>
    ⟨.anchoring, i + 1, g.anchorText v, g.ids [v], severityAt centrality v⟩

/-! ## Confirmation -/

def isChallenge (e : Edge) : Bool := e.kind == .contradicts || e.kind == .attacks

/-- The claims with two supports or more and nothing against them. -/
def confirmedOnly (g : ArgumentGraph) : List Nat :=
  (g.propositions.filter fun (p, v) =>
    p.kind == .claim && !(g.entering v).any isChallenge && 2 ≤ (g.supports v).length).map (·.2)

def confirmedText (g : ArgumentGraph) (v : Nat) : String :=
  "The claim \"" ++ g.label v ++ "\" has " ++ toString (g.supports v).length
    ++ " supporting inputs and nothing contradicting or attacking it. Only confirming evidence was"
    ++ " gathered; a robust argument addresses the opposing view."

/-- One bias for each claim that is only confirmed. -/
def confirmation (g : ArgumentGraph) (centrality : Array Float) : List Bias :=
  g.confirmedOnly.zipIdx.map fun (v, i) =>
    let affected := (v :: (g.supports v).map (·.source)).eraseDups
    ⟨.confirmation, i + 1, g.confirmedText v, g.ids affected, severityAt centrality v⟩

/-! ## Planning -/

/-- Whether a node is broken down into what it depends on. -/
def isDecomposed (g : ArgumentGraph) (v : Nat) : Bool :=
  (g.leaving v).any fun e => e.kind == .dependsOn || e.kind == .assumes

/-- Whether a constraint or a risk bears on a node. -/
def isConstrained (g : ArgumentGraph) (v : Nat) : Bool :=
  (g.entering v).any fun e => g.isKind .constraint e.source || g.isKind .risk e.source

/-- The claims that the argument rests on with high confidence and without a plan. -/
def unplanned (g : ArgumentGraph) : List Nat :=
  (g.propositions.filter fun (p, v) =>
    p.kind == .claim && p.isLoadBearing && p.confidence == .high
      && !g.isDecomposed v && !g.isConstrained v).map (·.2)

def unplannedText (g : ArgumentGraph) (v : Nat) : String :=
  "The claim \"" ++ g.label v ++ "\" carries the argument with high confidence but is not"
    ++ " decomposed into dependencies, constraints or risks. Break it into concrete, measurable"
    ++ " sub-goals."

/-- One bias for each claim without a plan. -/
def planningFallacy (g : ArgumentGraph) (centrality : Array Float) : List Bias :=
  g.unplanned.zipIdx.map fun (v, i) =>
    ⟨.planningFallacy, i + 1, g.unplannedText v, g.ids [v], severityAt centrality v⟩

/-! ## Attribute substitution -/

def subjects (g : ArgumentGraph) (v : Nat) : List String :=
  (g.proposition? v).elim [] Proposition.subjects

/-- Whether a node and one that supports it are about something, and about nothing in common. -/
def areUnrelated (claim support : List String) : Bool :=
  !claim.isEmpty && !support.isEmpty && !claim.any (· ∈ support)

/-- The claims with those supports of theirs that are about other subjects. -/
def substitutions (g : ArgumentGraph) : List (Nat × Nat) :=
  (g.propositions.filter (·.1.kind == .claim)).flatMap fun (p, v) =>
    let claim := p.subjects
    ((g.predecessors Edge.isSupport v).filter fun u => areUnrelated claim (g.subjects u)).map
      (v, ·)

/-- The wording for a claim and a support about other subjects. -/
def substitutionText (g : ArgumentGraph) (v u : Nat) : String :=
  let list (w : Nat) := ", ".intercalate (g.subjects w)
  "The claim \"" ++ g.label v ++ "\" is about [" ++ list v ++ "], but its support \"" ++ g.label u
    ++ "\" is about [" ++ list u
    ++ "]. An easier proxy may be standing in for the actual question."

/-- One bias for each claim and each support about other subjects. -/
def attributeSubstitution (g : ArgumentGraph) (centrality : Array Float) : List Bias :=
  g.substitutions.zipIdx.map fun ((v, u), i) =>
    ⟨.attributeSubstitution, i + 1, g.substitutionText v u, g.ids [v, u],
      severityAt centrality v⟩

/-- All biases, by pattern. -/
def biases (g : ArgumentGraph) (centrality : Array Float) : List Bias :=
  g.anchoring centrality ++ g.confirmation centrality ++ g.planningFallacy centrality
    ++ g.attributeSubstitution centrality

end ArgumentGraph

end Elenchus
