import Elenchus.Clause.Normal
import Elenchus.Formula.Error
import Elenchus.Order.Distinct

/-!
# Expansion into clauses

A normal form is multiplied out into clauses: a conjunction joins the clauses of its parts, a
disjunction has a clause for every choice of one clause from each part.  No variables are added.
The expansion is given up when it would have more than `maxClauses` clauses, tautologies and
repetitions counted.

`Formula.clauses` states a formula, `Formula.definition` states that a variable is true exactly when
the formula is.
-/

namespace Elenchus

/-- The most clauses that a formula may expand into. -/
def maxClauses : Nat := 4096

namespace Normal

def tooLarge : FormulaError := .tooLarge maxClauses

mutual

/-- The clauses of a normal form, each as the list of its literals. -/
def expand : Normal → Except FormulaError (List (List Literal))
  | .literal l => .ok [[l]]
  | .const true => .ok []
  | .const false => .ok [[]]
  | .all parts => expandAll [] parts
  | .any parts => expandAny [[]] parts

/-- The clauses of a conjunction, behind those of its earlier parts. -/
def expandAll (earlier : List (List Literal)) :
    List Normal → Except FormulaError (List (List Literal))
  | [] => .ok earlier
  | part :: parts => do
    let clauses := earlier ++ (← part.expand)
    if maxClauses < clauses.length then throw tooLarge
    expandAll clauses parts

/-- The clauses of a disjunction, its earlier parts being expanded already. -/
def expandAny (earlier : List (List Literal)) :
    List Normal → Except FormulaError (List (List Literal))
  | [] => .ok earlier
  | part :: parts => do
    let clauses ← part.expand
    if maxClauses < earlier.length * clauses.length then throw tooLarge
    expandAny (earlier.flatMap fun left => clauses.map (left ++ ·)) parts

end

/-- The clauses of a normal form, without tautologies, each at the place where it comes first. -/
def clauses (n : Normal) : Except FormulaError (List Clause) := do
  let rows ← n.expand
  return distinct ((rows.map Clause.ofList).filter (!·.isTautology))

end Normal

namespace Formula

/-- The clauses that state a formula, or its negation if `positive` is false. -/
def clausesOf (f : Formula) (positive : Bool) (table : VarTable) :
    Except FormulaError (List Clause) × VarTable :=
  let (n, table) := f.lower positive table
  (n.clauses, table)

/-- The clauses that state a formula. -/
def clauses (f : Formula) (table : VarTable) : Except FormulaError (List Clause) × VarTable :=
  f.clausesOf true table

/-- The normal form of the statement that a variable is true exactly when the formula is. -/
def definitionNormal (f : Formula) (v : Nat) (table : VarTable) : Normal × VarTable :=
  let (p, table) := f.lower true table
  let (q, table) := f.lower false table
  (.allOf [.anyOf [.literal ⟨v, false⟩, p], .anyOf [.literal ⟨v, true⟩, q]], table)

/-- The clauses that state that a variable is true exactly when the formula is. -/
def definition (f : Formula) (v : Nat) (table : VarTable) :
    Except FormulaError (List Clause) × VarTable :=
  let (n, table) := f.definitionNormal v table
  (n.clauses, table)

end Formula

end Elenchus
