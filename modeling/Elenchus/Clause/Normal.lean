import Elenchus.Clause.VarTable
import Elenchus.Formula.Basic

/-!
# Negation normal form

A formula, or its negation, is lowered to literals joined by conjunctions and disjunctions, without
implications and equivalences.  Constants are folded away on the spot, conjunctions inside
conjunctions and disjunctions inside disjunctions are taken apart, and a connective over one part is
that part (`Normal.allOf`, `Normal.anyOf`).

Lowering gives each atom its variable when it comes to it; `↔` is lowered to two disjunctions, and
so comes to its operands twice.
-/

namespace Elenchus

/-- Formulas in negation normal form. -/
inductive Normal where
  | literal (l : Literal)
  | const (value : Bool)
  /-- A conjunction. -/
  | all (parts : List Normal)
  /-- A disjunction. -/
  | any (parts : List Normal)
deriving Inhabited

namespace Normal

mutual

def holds (a : Assignment) : Normal → Bool
  | .literal l => l.holds a
  | .const b => b
  | .all parts => allHold a parts
  | .any parts => anyHolds a parts

def allHold (a : Assignment) : List Normal → Bool
  | [] => true
  | n :: ns => n.holds a && allHold a ns

def anyHolds (a : Assignment) : List Normal → Bool
  | [] => false
  | n :: ns => n.holds a || anyHolds a ns

end

def isConst (value : Bool) : Normal → Bool
  | .const b => b == value
  | _ => false

/-- The parts of a conjunction; truth has none, and anything else is its own part. -/
def conjuncts : Normal → List Normal
  | .const true => []
  | .all parts => parts
  | n => [n]

/-- The parts of a disjunction; falsity has none, and anything else is its own part. -/
def alternatives : Normal → List Normal
  | .const false => []
  | .any parts => parts
  | n => [n]

def allOf (parts : List Normal) : Normal :=
  if parts.any (isConst false) then .const false
  else
    match parts.flatMap conjuncts with
    | [] => .const true
    | [n] => n
    | ns => .all ns

def anyOf (parts : List Normal) : Normal :=
  if parts.any (isConst true) then .const true
  else
    match parts.flatMap alternatives with
    | [] => .const false
    | [n] => n
    | ns => .any ns

end Normal

/-- A formula in negation normal form, or its negation if `positive` is false; the table is extended
by the atoms that are new to it. -/
def Formula.lower : Formula → (positive : Bool) → VarTable → Normal × VarTable
  | .atom text, positive, table =>
    let (v, table) := table.intern (.atom text)
    (.literal ⟨v, positive⟩, table)
  | .const value, positive, table => (.const (value == positive), table)
  | .not f, positive, table => f.lower (!positive) table
  | .binary .and f g, positive, table =>
    let (p, table) := f.lower positive table
    let (q, table) := g.lower positive table
    (if positive then .allOf [p, q] else .anyOf [p, q], table)
  | .binary .or f g, positive, table =>
    let (p, table) := f.lower positive table
    let (q, table) := g.lower positive table
    (if positive then .anyOf [p, q] else .allOf [p, q], table)
  | .binary .implies f g, positive, table =>
    let (p, table) := f.lower (!positive) table
    let (q, table) := g.lower positive table
    (if positive then .anyOf [p, q] else .allOf [p, q], table)
  | .binary .iff f g, positive, table =>
    let (p, table) := f.lower (!positive) table
    let (q, table) := g.lower true table
    let (r, table) := f.lower positive table
    let (s, table) := g.lower false table
    (.allOf [.anyOf [p, q], .anyOf [r, s]], table)

end Elenchus
