import Elenchus.Clause.VarTable

/-!
# Derivations

A derivation shows that clauses are unsatisfiable together.  It is a list of numbered steps.  A step
states a clause, a literal or falsity, and says why it holds by citing the numbers of earlier steps.
A step stands at a depth: an assumption opens a case one level deeper than the steps around it, and
what follows at that depth holds under the assumption.

* a premise is a clause that is given;
* a literal follows from a clause all of whose other literals are refuted;
* falsity follows from two opposite literals, from the empty clause, or from two cases on opposite
  literals that both end in falsity.

A pure literal is a choice of the search and no consequence: it is written down but nothing may cite
it.
-/

namespace Elenchus

/-- What a step states. -/
inductive Statement where
  | clause (c : Clause)
  | literal (l : Literal)
  | bottom
deriving DecidableEq

/-- Why a step holds.  Steps are cited by their number, from 1. -/
inductive Justification where
  /-- It is given, by these propositions and this text. -/
  | premise (propositions : List PropositionId) (source : String)
  | assumption
  /-- It is a choice of the search. -/
  | pureLiteral
  /-- All other literals of a clause are refuted. -/
  | unitResolution (clause : Nat) (antecedents : List Nat)
  /-- Two literals are opposite. -/
  | contradiction (positive negative : Nat)
  /-- A clause has no literal. -/
  | emptyClause (clause : Nat)
  /-- Two cases, each from its assumption to its end, cover everything. -/
  | caseAnalysis (cases : List (Nat × Nat))
deriving DecidableEq, Repr

structure Step where
  depth : Nat
  statement : Statement
  justification : Justification
deriving DecidableEq

/-- A list of steps; whether it derives anything is for the checker to say. -/
structure Derivation where
  steps : List Step
deriving DecidableEq

namespace Derivation

def statementText (table : VarTable) : Statement → String
  | .clause c => table.clauseText c
  | .literal l => table.literalText l
  | .bottom => "⊥"

/-- Numbers with commas between them. -/
def numbersText (numbers : List Nat) : String := ", ".intercalate (numbers.map toString)

def justificationText : Justification → String
  | .premise propositions source =>
    "premise from " ++ ", ".intercalate (propositions.map PropositionId.text) ++ ": " ++ source
  | .assumption => "assume (case)"
  | .pureLiteral => "pure literal"
  | .unitResolution clause [] => "from clause " ++ toString clause
  | .unitResolution clause antecedents =>
    "from clause " ++ toString clause ++ " and lines " ++ numbersText antecedents ++ ", forced"
  | .contradiction positive negative =>
    "contradiction of lines " ++ toString positive ++ " and " ++ toString negative
  | .emptyClause clause => "clause " ++ toString clause ++ " is empty"
  | .caseAnalysis cases =>
    let span (c : Nat × Nat) := toString c.1 ++ "-" ++ toString c.2
    "⊥ in both cases (" ++ ", ".intercalate (cases.map span) ++ ")"

/-- The number of a step, in at least three places. -/
def numberText (n : Nat) : String :=
  let digits := toString n
  String.ofList (List.replicate (3 - digits.length) ' ') ++ digits

/-- The text of the step with a number, indented by its depth. -/
def stepText (table : VarTable) (number : Nat) (s : Step) : String :=
  numberText number ++ ". " ++ String.ofList (List.replicate (2 * s.depth) ' ')
    ++ statementText table s.statement ++ "    [" ++ justificationText s.justification ++ "]"

/-- The text of a derivation, one step a line. -/
def text (d : Derivation) (table : VarTable) : String :=
  "\n".intercalate (d.steps.zipIdx.map fun (s, i) => stepText table (i + 1) s)

/-- Whether the last step reads as falsity, under no assumption. -/
def concludesBottom (d : Derivation) (table : VarTable) : Bool :=
  match d.steps.getLast? with
  | some s => s.depth == 0 && statementText table s.statement == "⊥"
  | none => false

end Derivation

end Elenchus
