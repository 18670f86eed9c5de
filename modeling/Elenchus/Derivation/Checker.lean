import Elenchus.Derivation.Basic
import Elenchus.Derivation.Error

/-!
# Checking derivations

A derivation is checked step by step, without a search.  The checker keeps the scopes that are open,
one for each depth, with the numbers of the steps written in them; a step may cite what is written
in an open scope.  A scope that is left becomes a closed case, known by its first and last step and
its depth.  Whatever list of steps is accepted, its premises are unsatisfiable together.
-/

namespace Elenchus

/-- A case that has been left: the numbers of its first and last step, and its depth. -/
structure ClosedCase where
  first : Nat
  last : Nat
  depth : Nat
deriving DecidableEq, Repr

/-- The state between two steps of a check. -/
structure Checker where
  /-- The steps of the innermost open scope, the latest first. -/
  scope : List Nat
  /-- The steps of the open scopes around it, the innermost first. -/
  outer : List (List Nat)
  closed : List ClosedCase
  /-- The steps that may not be cited. -/
  uncitable : List Nat
deriving DecidableEq, Repr

namespace Checker

def start : Checker := ⟨[], [], [], []⟩

def depth (k : Checker) : Nat := k.outer.length

/-- The case that a scope becomes when it is left; an empty one becomes none. -/
def closeScope (lines : List Nat) (depth : Nat) : List ClosedCase :=
  match lines.getLast?, lines.head? with
  | some first, some last => [⟨first, last, depth⟩]
  | _, _ => []

/-- Leaves scopes until the innermost one is at the given depth, or is the outermost. -/
def leaveTo (depth : Nat) (scope : List Nat) (outer : List (List Nat)) (closed : List ClosedCase) :
    List Nat × List (List Nat) × List ClosedCase :=
  match outer with
  | [] => (scope, [], closed)
  | next :: rest =>
    if depth < rest.length + 1 then
      leaveTo depth next rest (closeScope scope (rest.length + 1) ++ closed)
    else (scope, next :: rest, closed)

/-- The state with all scopes deeper than the given depth left. -/
def leave (k : Checker) (depth : Nat) : Checker :=
  let (scope, outer, closed) := leaveTo depth k.scope k.outer k.closed
  { k with scope, outer, closed }

def isVisible (k : Checker) (target : Nat) : Bool :=
  target ∈ k.scope || k.outer.any (target ∈ ·)

section
variable (steps : List Step)

/-- The step with a number. -/
def step? (line : Nat) : Option Step := if line = 0 then none else steps[line - 1]?

/-- The literal on a step that is cited at the step with number `line`. -/
def citedLiteral (k : Checker) (line target : Nat) : Except StepFault Literal :=
  if ¬(target < line ∧ k.isVisible target) then .error (.outOfScope target)
  else if target ∈ k.uncitable then .error (.citesPure target)
  else
    match (step? steps target).map Step.statement with
    | some (.literal l) => .ok l
    | _ => .error (.notLiteral target)

/-- The premise on a step that is cited at the step with number `line`. -/
def citedClause (k : Checker) (line target : Nat) : Except StepFault Clause :=
  if ¬(target < line ∧ k.isVisible target) then .error (.outOfScope target)
  else
    match step? steps target with
    | some ⟨_, .clause c, .premise ..⟩ => .ok c
    | _ => .error (.notPremise target)

/-- The hypothesis of a case that is cited at the given depth: the case is closed, began after the
innermost open scope did, and ends in falsity. -/
def hypothesis (k : Checker) (depth : Nat) (case : Nat × Nat) : Except StepFault Literal :=
  let (first, last) := case
  let opened := k.scope.getLast?.getD 0
  if ⟨first, last, depth + 1⟩ ∉ k.closed ∨ first ≤ opened then .error (.notClosedCase first last)
  else if (step? steps last).map Step.statement ≠ some .bottom then .error (.caseEnd first last)
  else
    match (step? steps first).map Step.statement with
    | some (.literal l) => .ok l
    | _ => .error (.notHypothesis first)

/-- Whether a step that is no assumption holds, the scopes being those of its depth. -/
def justify (k : Checker) (line : Nat) (s : Step) : Except StepFault Unit :=
  match s.justification with
  | .assumption => .ok ()
  | .premise .. =>
    match s.depth, s.statement with
    | 0, .clause _ => .ok ()
    | _, _ => .error .premisePlace
  | .pureLiteral =>
    match s.statement with
    | .literal _ => .ok ()
    | _ => .error .pureStatement
  | .unitResolution clause antecedents =>
    match s.statement with
    | .literal derived => do
      let source ← k.citedClause steps line clause
      let refuted ← antecedents.mapM (k.citedLiteral steps line)
      let expected := Clause.ofList (derived :: refuted.map Literal.negate)
      if source = expected ∧ expected.size = antecedents.length + 1 then .ok ()
      else .error (.notForced clause)
    | _ => .error .unitStatement
  | .contradiction positive negative =>
    if s.statement ≠ .bottom then .error .contradictionStatement
    else do
      let p ← k.citedLiteral steps line positive
      let n ← k.citedLiteral steps line negative
      if p.negate = n then .ok () else .error (.notOpposite positive negative)
  | .emptyClause clause =>
    if s.statement ≠ .bottom then .error .emptyStatement
    else do
      let source ← k.citedClause steps line clause
      if source.size = 0 then .ok () else .error (.notEmpty clause)
  | .caseAnalysis cases =>
    if s.statement ≠ .bottom then .error .casesStatement
    else do
      match ← cases.mapM (k.hypothesis steps s.depth) with
      | [l, m] => if l = m.negate then .ok () else .error .notExhaustive
      | _ => .error .notExhaustive

/-- The state after the step with number `line`, if it holds. -/
def check (k : Checker) (line : Nat) (s : Step) : Except StepFault Checker :=
  if s.justification = .assumption then
    if s.depth = 0 ∨ k.depth + 1 < s.depth then .error .assumptionDepth
    else
      match s.statement with
      | .literal _ =>
        let k := k.leave (s.depth - 1)
        .ok { k with scope := [line], outer := k.scope :: k.outer }
      | _ => .error .assumptionStatement
  else if k.depth < s.depth then .error .depthJump
  else do
    let k := k.leave s.depth
    k.justify steps line s
    let uncitable := if s.justification = .pureLiteral then line :: k.uncitable else k.uncitable
    return { k with scope := line :: k.scope, uncitable }

/-- Checks steps that start with the number `line`. -/
def checkFrom (k : Checker) (line : Nat) : List Step → Except DerivationError Unit
  | [] => .ok ()
  | s :: rest =>
    match k.check steps line s with
    | .error fault => .error (.invalidLine line fault)
    | .ok k => k.checkFrom (line + 1) rest

end

end Checker

/-- Whether a step states falsity under no assumption. -/
def Step.isConclusion (s : Step) : Bool := s.depth = 0 && s.statement = .bottom

/-- Checks every step, and that the last one states falsity under no assumption. -/
def Derivation.check (d : Derivation) : Except DerivationError Unit := do
  Checker.start.checkFrom d.steps 1 d.steps
  if d.steps.getLast?.any Step.isConclusion then .ok ()
  else .error (.invalidLine d.steps.length .notConcluded)

end Elenchus
