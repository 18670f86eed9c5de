/-!
# Formulas

The formulas of an argument are propositional: atoms, the two constants, negation and four binary
connectives.  An atom is known by its text alone, so two atoms are the same proposition exactly
when their texts agree.

The four connectives are data (`Connective`) and a formula joins two others by one of them
(`Formula.binary`).  What reading, printing and lowering have to know of a connective (how tight it
binds, on which side it associates, what it means) is then a function on `Connective`.

* `Formula.eval` is the meaning under a valuation of the atoms.
* `Formula.height` counts the levels of the tree, an atom or a constant being one level.
* `Formula.conclusion`, `Formula.disjuncts` and `Formula.atoms` are the views that the analyses of
  an argument take.
-/

namespace Elenchus

inductive Connective where
  | and
  | or
  | implies
  | iff
deriving DecidableEq, Repr

namespace Connective

def eval : Connective → Bool → Bool → Bool
  | .and, a, b => a && b
  | .or, a, b => a || b
  | .implies, a, b => !a || b
  | .iff, a, b => a == b

def sign : Connective → String
  | .and => "∧"
  | .or => "∨"
  | .implies => "→"
  | .iff => "↔"

end Connective

/-- Propositional formulas over named atoms. -/
inductive Formula where
  /-- An atomic statement, known by its normalised text. -/
  | atom (text : String)
  | const (value : Bool)
  | not (body : Formula)
  | binary (connective : Connective) (left right : Formula)
deriving DecidableEq, Repr, Inhabited

namespace Formula

/-- The truth value under a valuation of the atoms. -/
def eval (value : String → Bool) : Formula → Bool
  | .atom text => value text
  | .const b => b
  | .not f => !f.eval value
  | .binary c f g => c.eval (f.eval value) (g.eval value)

/-- The levels of the tree; an atom or a constant is one level. -/
def height : Formula → Nat
  | .atom _ => 1
  | .const _ => 1
  | .not f => f.height + 1
  | .binary _ f g => max f.height g.height + 1

/-- What a chain of implications leads to: the conclusion of `A → (B → C)` is `C`, and a formula
that is no implication concludes itself. -/
def conclusion : Formula → Formula
  | .binary .implies _ g => g.conclusion
  | f => f

/-- The operands of a formula read as a disjunction, nested disjunctions taken apart. -/
def alternatives : Formula → List Formula
  | .binary .or f g => f.alternatives ++ g.alternatives
  | f => [f]

/-- The operands of a disjunction; a formula that is none has no disjuncts. -/
def disjuncts : Formula → List Formula
  | .binary .or f g => (Formula.binary .or f g).alternatives
  | _ => []

/-- The atoms in reading order, each time they occur. -/
def atomOccurrences : Formula → List String
  | .atom text => [text]
  | .const _ => []
  | .not f => f.atomOccurrences
  | .binary _ f g => f.atomOccurrences ++ g.atomOccurrences

/-- The atoms in the order of their first occurrence. -/
def atoms (f : Formula) : List String :=
  f.atomOccurrences.foldl (fun seen a => if a ∈ seen then seen else seen ++ [a]) []

end Formula

end Elenchus
