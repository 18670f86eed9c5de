import Elenchus.ErrorCode
import Elenchus.Formula.Token

/-!
# Errors of formulas

What can be wrong with the text of a formula, or with its expansion into clauses.  An offset counts
characters from the start of the text; a fragment is the text from the offset on, trimmed.
-/

namespace Elenchus

/-- The causes for which a formula is refused. -/
inductive FormulaError where
  /-- The text holds no token. -/
  | empty
  /-- A character that starts no token. -/
  | foreignCharacter (char : Char) (offset : Nat)
  /-- A token where another was needed. -/
  | unexpected (found : Token) (offset : Nat) (fragment : String)
  /-- The text ends where more was needed. -/
  | unexpectedEnd (offset : Nat)
  /-- The text ends inside a parenthesis. -/
  | unclosed (offset : Nat) (fragment : String)
  /-- A closing parenthesis that closes nothing. -/
  | unopened (offset : Nat)
  /-- A whole formula is followed by more text. -/
  | trailing (offset : Nat) (fragment : String)
  /-- The expansion has more clauses than the limit. -/
  | tooLarge (limit : Nat)
  /-- The formula nests deeper than the limit. -/
  | tooDeep (limit offset : Nat) (fragment : String)
deriving DecidableEq, Repr

namespace FormulaError

def code : FormulaError → ErrorCode
  | .empty => ⟨.formula, 1001, "FORMULA_EMPTY_EXPRESSION"⟩
  | .foreignCharacter .. => ⟨.formula, 1002, "FORMULA_UNEXPECTED_CHAR"⟩
  | .unexpected .. => ⟨.formula, 1003, "FORMULA_UNEXPECTED_TOKEN"⟩
  | .unexpectedEnd .. => ⟨.formula, 1004, "FORMULA_UNEXPECTED_END"⟩
  | .unclosed .. => ⟨.formula, 1005, "FORMULA_UNCLOSED_PAREN"⟩
  | .unopened .. => ⟨.formula, 1006, "FORMULA_UNEXPECTED_CLOSE_PAREN"⟩
  | .trailing .. => ⟨.formula, 1007, "FORMULA_TRAILING_INPUT"⟩
  | .tooLarge .. => ⟨.formula, 1008, "FORMULA_TOO_LARGE"⟩
  | .tooDeep .. => ⟨.formula, 1009, "FORMULA_TOO_DEEP"⟩

def message : FormulaError → String
  | .empty => "Empty expression"
  | .foreignCharacter char offset =>
    "Unexpected character '" ++ char.toString ++ "' at offset " ++ toString offset
  | .unexpected found offset fragment =>
    "Unexpected " ++ found.description ++ " at offset " ++ toString offset
      ++ " in '" ++ fragment ++ "'"
  | .unexpectedEnd offset => "Unexpected end of expression at offset " ++ toString offset
  | .unclosed offset fragment =>
    "Unclosed parenthesis at offset " ++ toString offset ++ " in '" ++ fragment ++ "'"
  | .unopened offset => "Unexpected closing parenthesis at offset " ++ toString offset
  | .trailing offset fragment =>
    "Trailing input at offset " ++ toString offset ++ ": '" ++ fragment ++ "'"
  | .tooLarge limit => "Expression expands to more than " ++ toString limit ++ " clauses"
  | .tooDeep limit offset fragment =>
    "Expression nests deeper than " ++ toString limit ++ " levels at offset " ++ toString offset
      ++ " in '" ++ fragment ++ "'"

/-- The offset of the fault, where there is one. -/
def offset? : FormulaError → Option Nat
  | .empty | .tooLarge _ => none
  | .foreignCharacter _ offset | .unexpected _ offset _ | .unexpectedEnd offset
  | .unclosed offset _ | .unopened offset | .trailing offset _ | .tooDeep _ offset _ => some offset

/-- The text at the fault, where there is one. -/
def fragment? : FormulaError → Option String
  | .foreignCharacter char _ => some char.toString
  | .unexpected _ _ fragment | .unclosed _ fragment | .trailing _ fragment
  | .tooDeep _ _ fragment => some fragment
  | .unopened _ => some ")"
  | .empty | .unexpectedEnd _ | .tooLarge _ => none

end FormulaError

end Elenchus
