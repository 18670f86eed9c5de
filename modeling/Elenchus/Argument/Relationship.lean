import Elenchus.Argument.Error

/-!
# Relationships

A relationship leads from one proposition of an argument to another and says how the first bears on
the second.
-/

namespace Elenchus

/-- How one proposition bears on another. -/
inductive RelationshipKind where
  | supports
  | contradicts
  | dependsOn
  | attacks
  | assumes
deriving DecidableEq, Repr

namespace RelationshipKind

def name : RelationshipKind → String
  | .supports => "supports"
  | .contradicts => "contradicts"
  | .dependsOn => "depends_on"
  | .attacks => "attacks"
  | .assumes => "assumes"

def names : List (String × RelationshipKind) :=
  [("supports", .supports), ("contradicts", .contradicts), ("depends_on", .dependsOn),
   ("depends-on", .dependsOn), ("concludes_from", .dependsOn), ("attacks", .attacks),
   ("assumes", .assumes)]

def ofText (s : String) : Except InputError RelationshipKind := chosen .relationshipKind names s

/-- The kinds along which reasons are passed on; a loop of them is circular. -/
def isSupportChain : RelationshipKind → Bool
  | .supports | .dependsOn => true
  | .contradicts | .attacks | .assumes => false

/-- The kinds that order propositions by what comes first. -/
def isDependency : RelationshipKind → Bool
  | .supports | .dependsOn | .assumes => true
  | .contradicts | .attacks => false

end RelationshipKind

/-- How strongly a relationship holds. -/
inductive Strength where
  | weak
  | moderate
  | strong
deriving DecidableEq, Repr

namespace Strength

def name : Strength → String
  | .weak => "weak"
  | .moderate => "moderate"
  | .strong => "strong"

def names : List (String × Strength) :=
  [("weak", .weak), ("moderate", .moderate), ("strong", .strong)]

def ofText (s : String) : Except InputError Strength := chosen .strength names s

def rank : Strength → Nat
  | .weak => 0
  | .moderate => 1
  | .strong => 2

def atLeast (s least : Strength) : Bool := least.rank ≤ s.rank

end Strength

/-- A directed link between two propositions. -/
structure Relationship where
  id : RelationshipId
  fromId : PropositionId
  toId : PropositionId
  kind : RelationshipKind
  strength : Strength
  label : Option String
deriving DecidableEq, Repr

/-- Whether a relationship leads back to where it starts. -/
def Relationship.isSelfLoop (r : Relationship) : Bool := r.fromId = r.toId

end Elenchus
