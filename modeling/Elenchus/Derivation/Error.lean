import Elenchus.Budget
import Elenchus.Clause.Basic

/-!
# Errors of derivations

Why there is no derivation of a contradiction, or why a list of steps is none.
-/

namespace Elenchus

/-- Why the log of a search gives no derivation. -/
inductive ReplayFault where
  /-- A literal is needed that was not derived. -/
  | notDerived (l : Literal)
  /-- There is no clause at the position. -/
  | noClause (position : Nat)
  /-- A case is taken back while none is open. -/
  | noOpenCase
  /-- A case is taken back that did not reach falsity. -/
  | caseUnfinished
  /-- The log ends with a case open. -/
  | searchUnfinished
deriving DecidableEq, Repr

def ReplayFault.message : ReplayFault → String
  | .notDerived l => "literal " ++ toString l.code ++ " was never derived"
  | .noClause position => "clause " ++ toString position ++ " out of range"
  | .noOpenCase => "backtrack without an open case"
  | .caseUnfinished => "case closed without reaching ⊥"
  | .searchUnfinished => "search did not close every case"

/-- Why a step of a derivation does not hold. -/
inductive StepFault where
  | assumptionDepth
  | assumptionStatement
  | depthJump
  | premisePlace
  | pureStatement
  | unitStatement
  | notForced (clause : Nat)
  | contradictionStatement
  | notOpposite (positive negative : Nat)
  | emptyStatement
  | notEmpty (clause : Nat)
  | casesStatement
  | notClosedCase (first last : Nat)
  | caseEnd (first last : Nat)
  | notHypothesis (line : Nat)
  | notExhaustive
  | outOfScope (line : Nat)
  | citesPure (line : Nat)
  | notLiteral (line : Nat)
  | notPremise (line : Nat)
  | notConcluded
deriving DecidableEq, Repr

def StepFault.message : StepFault → String
  | .assumptionDepth => "assumption at an impossible depth"
  | .assumptionStatement => "assumptions must be literals"
  | .depthJump => "depth increases without an assumption"
  | .premisePlace => "premises are clauses at depth 0"
  | .pureStatement => "pure literal line must be a literal"
  | .unitStatement => "unit resolution derives a literal"
  | .notForced clause => "clause " ++ toString clause ++ " does not force this literal"
  | .contradictionStatement => "contradiction derives ⊥"
  | .notOpposite positive negative =>
    "lines " ++ toString positive ++ " and " ++ toString negative ++ " are not complementary"
  | .emptyStatement => "empty clause derives ⊥"
  | .notEmpty clause => "clause " ++ toString clause ++ " is not empty"
  | .casesStatement => "case analysis derives ⊥"
  | .notClosedCase first last =>
    "lines " ++ toString first ++ "-" ++ toString last ++ " are not a closed case here"
  | .caseEnd first last =>
    "case " ++ toString first ++ "-" ++ toString last ++ " does not end in ⊥"
  | .notHypothesis line => "line " ++ toString line ++ " is not a hypothesis"
  | .notExhaustive => "cases do not cover both polarities"
  | .outOfScope line => "line " ++ toString line ++ " is not in scope"
  | .citesPure line =>
    "line " ++ toString line ++ " is a pure-literal choice and cannot be cited"
  | .notLiteral line => "line " ++ toString line ++ " is not a literal"
  | .notPremise line => "line " ++ toString line ++ " is not a premise clause"
  | .notConcluded => "proof does not end in ⊥ at depth 0"

/-- Why there is no derivation. -/
inductive DerivationError where
  /-- The search was stopped. -/
  | exhausted (reason : Exhaustion)
  /-- The propositions do not contradict each other. -/
  | satisfiable
  /-- The log of the search gives no derivation. -/
  | replay (fault : ReplayFault)
  /-- A step does not hold. -/
  | invalidLine (line : Nat) (fault : StepFault)
deriving DecidableEq, Repr

namespace DerivationError

/-- The stable name of each cause. -/
def name : DerivationError → String
  | .exhausted _ => "PROOF_EXHAUSTED"
  | .satisfiable => "PROOF_SATISFIABLE"
  | .replay _ => "PROOF_REPLAY"
  | .invalidLine .. => "PROOF_INVALID_LINE"

def message : DerivationError → String
  | .exhausted reason => "Proof replay stopped: " ++ reason.message
  | .satisfiable => "Core is satisfiable"
  | .replay fault => "Trace cannot be replayed: " ++ fault.message
  | .invalidLine line fault =>
    "Line " ++ toString line ++ " is not justified: " ++ fault.message

end DerivationError

end Elenchus
