import Elenchus.Formula.Basic

/-!
# Tokens of formulas

A formula is written in tokens: the negation sign, the connectives, parentheses and commas, the
comparison operators, the two constants and names.  A token is known by what it means, not by how it
was spelled: `∧`, `&` and `&&` are one token.
-/

namespace Elenchus

/-- The comparison operators, which join two terms into one atom. -/
inductive Comparison where
  | less
  | lessOrEqual
  | equal
  | notEqual
  | greaterOrEqual
  | greater
deriving DecidableEq, Repr

def Comparison.sign : Comparison → String
  | .less => "<"
  | .lessOrEqual => "<="
  | .equal => "="
  | .notEqual => "!="
  | .greaterOrEqual => ">="
  | .greater => ">"

/-- The text of a constant that stands inside an atom. -/
def constantWord (value : Bool) : String := if value then "true" else "false"

inductive Token where
  | not
  | connective (c : Connective)
  | openParen
  | closeParen
  | comma
  | compare (op : Comparison)
  | const (value : Bool)
  | name (text : String)
deriving DecidableEq, Repr

/-- A token as a message names it. -/
def Token.description : Token → String
  | .not => "'¬'"
  | .connective c => "'" ++ c.sign ++ "'"
  | .openParen => "'('"
  | .closeParen => "')'"
  | .comma => "','"
  | .compare op => "operator '" ++ op.sign ++ "'"
  | .const value => "constant " ++ constantWord value
  | .name text => "name '" ++ text ++ "'"

/-- A token at its place in the text: it takes the characters from `start` up to, but not with,
`stop`. -/
structure Lexeme where
  token : Token
  start : Nat
  stop : Nat
deriving DecidableEq, Repr

/-- What a text is read as: its tokens and, behind the last of them, its end, at the offset where
the reading stopped. -/
structure Tokens where
  lexemes : List Lexeme
  stop : Nat
deriving DecidableEq, Repr

/-- One more token in front. -/
def Tokens.cons (l : Lexeme) (later : Tokens) : Tokens := ⟨l :: later.lexemes, later.stop⟩

end Elenchus
