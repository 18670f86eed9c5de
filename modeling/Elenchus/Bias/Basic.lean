import Elenchus.Argument.Id

/-!
# Biases

A bias is a habit of thought that shows in the shape of an argument.  There are four patterns.  The
biases of one pattern are numbered from 1, and a bias is identified by its pattern and its number.
It is the more severe the more of the argument leans on the proposition that shows it.
-/

namespace Elenchus

inductive BiasPattern where
  | anchoring
  | confirmation
  | planningFallacy
  | attributeSubstitution
deriving DecidableEq, Repr

namespace BiasPattern

def name : BiasPattern → String
  | .anchoring => "anchoring"
  | .confirmation => "confirmation"
  | .planningFallacy => "planning_fallacy"
  | .attributeSubstitution => "attribute_substitution"

/-- The short name of a pattern, which identifiers are made of. -/
def slug : BiasPattern → String
  | .anchoring => "anchoring"
  | .confirmation => "confirmation"
  | .planningFallacy => "planning"
  | .attributeSubstitution => "substitution"

def title : BiasPattern → String
  | .anchoring => "Anchoring Effect"
  | .confirmation => "Confirmation Bias"
  | .planningFallacy => "Planning Fallacy"
  | .attributeSubstitution => "Attribute Substitution"

/-- Where a pattern is described. -/
def reference : BiasPattern → String
  | .anchoring => "Thinking, Fast and Slow, Chapter 11: Anchors"
  | .confirmation =>
    "Thinking, Fast and Slow, Chapter 7: A Machine for Jumping to Conclusions"
  | .planningFallacy => "Thinking, Fast and Slow, Chapter 23: The Outside View"
  | .attributeSubstitution =>
    "Thinking, Fast and Slow, Chapter 9: Answering an Easier Question"

end BiasPattern

/-- How much of the argument leans on a bias. -/
inductive BiasSeverity where
  | low
  | medium
  | high
deriving DecidableEq, Repr

namespace BiasSeverity

def name : BiasSeverity → String
  | .low => "low"
  | .medium => "medium"
  | .high => "high"

/-- The severity at a proposition, by its betweenness. -/
def ofCentrality (score : Float) : BiasSeverity :=
  if 0.3 < score then .high else if 0.1 < score then .medium else .low

end BiasSeverity

/-- A habit of thought that shows in an argument. -/
structure Bias where
  pattern : BiasPattern
  /-- The number among the biases of the same pattern. -/
  number : Nat
  description : String
  affected : List PropositionId
  severity : BiasSeverity
deriving DecidableEq, Repr

def Bias.id (b : Bias) : String := "bias-" ++ b.pattern.slug ++ "-" ++ toString b.number

end Elenchus
