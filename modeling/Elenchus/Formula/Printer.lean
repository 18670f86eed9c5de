import Elenchus.Formula.Basic

/-!
# Printing formulas

A formula is written with as few parentheses as its reading allows.  Each kind of formula has a
binding strength, and each operand place asks for a least strength; an operand that is weaker is put
in parentheses.  The places of a connective differ on the two sides by the side it associates on:
`∧`, `∨` and `↔` to the left, `→` to the right.
-/

namespace Elenchus

namespace Connective

/-- How tightly a connective binds; a larger number binds tighter. -/
def strength : Connective → Nat
  | .and => 4
  | .or => 3
  | .implies => 2
  | .iff => 1

/-- Whether a chain of the connective groups to the right. -/
def groupsRight : Connective → Bool
  | .implies => true
  | .and | .or | .iff => false

/-- The least strength that the left operand may have without parentheses. -/
def leftStrength (c : Connective) : Nat :=
  if c.groupsRight then c.strength + 1 else c.strength

/-- The least strength that the right operand may have without parentheses. -/
def rightStrength (c : Connective) : Nat :=
  if c.groupsRight then c.strength else c.strength + 1

end Connective

namespace Formula

/-- How tightly a formula holds together; a larger number binds tighter. -/
def strength : Formula → Nat
  | .atom _ => 6
  | .const _ => 6
  | .not _ => 5
  | .binary c _ _ => c.strength

/-- A text in parentheses if the strength it stands for is below the one the place asks for. -/
def guarded (strength least : Nat) (text : String) : String :=
  if strength < least then "(" ++ text ++ ")" else text

/-- The text of a formula, with the parentheses its reading needs. -/
def text : Formula → String
  | .atom name => name
  | .const true => "⊤"
  | .const false => "⊥"
  | .not f => "¬" ++ guarded f.strength 5 f.text
  | .binary c f g =>
    guarded f.strength c.leftStrength f.text ++ " " ++ c.sign ++ " "
      ++ guarded g.strength c.rightStrength g.text

end Formula

end Elenchus
