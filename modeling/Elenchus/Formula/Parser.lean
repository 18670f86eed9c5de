import Elenchus.Formula.Lexer
import Elenchus.Formula.Printer

/-!
# From tokens to formulas

A formula is read by recursive descent over its tokens.  The binary connectives bind in the order
`∧`, `∨`, `→`, `↔` from the tightest; `∧`, `∨` and `↔` group to the left, `→` to the right; `¬`
binds tighter than all of them.  Below the connectives stand parentheses, constants and atoms.  An
atom is a term, or two terms joined by a comparison operator; a term is a name, with a list of
arguments if a parenthesis follows it.  Terms are kept as text, with the blanks put in anew, so that
`p(a,b)` and `p( a , b )` are the same atom.

Every reading takes at least one token, and says so in its type: what it returns beside its result
is a shorter list of tokens (`Rest`).  That is the measure on which the descent ends.

Two things are bounded by `maxNesting`: the parentheses that are open at once, those of argument
lists among them, and the height of the formula.  The offsets of the open parentheses are passed
down, innermost first, and a text that ends too early is reported at the innermost.
-/

namespace Elenchus

/-- The greatest height of a formula, and the most parentheses that may be open at once. -/
def maxNesting : Nat := 128

/-- The most characters of the text that a report of too deep nesting quotes. -/
def deepFragmentLength : Nat := 32

namespace Reading

/-- A text as reports need it: its characters, from which they quote, and the offset of its end. -/
structure Source where
  chars : List Char
  stop : Nat

/-- What is left after a reading that took at least one token. -/
abbrev Rest (tokens : List Lexeme) := { rest : List Lexeme // rest.length < tokens.length }

/-- What is left after a reading that may have taken no token. -/
abbrev Remainder (tokens : List Lexeme) := { rest : List Lexeme // rest.length ≤ tokens.length }

section
variable (source : Source)

/-- The report of a nesting past the limit. -/
def tooDeep (offset : Nat) : FormulaError :=
  .tooDeep maxNesting offset
    (String.ofList ((fragmentFrom source.chars offset).toList.take deepFragmentLength))

/-- The report that the first of the tokens fits no rule, with `opens` the open parentheses. -/
def unexpected (opens : List Nat) : List Lexeme → FormulaError
  | [] =>
    match opens with
    | [] => .unexpectedEnd source.stop
    | offset :: _ => .unclosed offset (fragmentFrom source.chars offset)
  | ⟨token, offset, _⟩ :: _ =>
    if token = .closeParen ∧ opens = [] then .unopened offset
    else .unexpected token offset (fragmentFrom source.chars offset)

/-- The open parentheses with one more, which starts at `offset`. -/
def opened (opens : List Nat) (offset : Nat) : Except FormulaError (List Nat) :=
  if maxNesting < opens.length + 1 then .error (tooDeep source offset) else .ok (offset :: opens)

/-- A formula just joined by the token at `offset`, if it is not too high. -/
def joined (formula : Formula) (offset : Nat) : Except FormulaError Formula :=
  if maxNesting < formula.height then .error (tooDeep source offset) else .ok formula

/-! ## Terms -/

mutual

/-- A name, with its arguments if a parenthesis follows. -/
def term (opens : List Nat) : (tokens : List Lexeme) → Except FormulaError (String × Rest tokens)
  | ⟨.name name, _, _⟩ :: ⟨.openParen, offset, _⟩ :: tokens => do
    let opens ← opened source opens offset
    let (args, ⟨rest, _⟩) ← arguments opens tokens
    let text := name ++ "(" ++ ", ".intercalate args ++ ")"
    return (text, ⟨rest, by simp only [List.length_cons]; omega⟩)
  | ⟨.name name, _, _⟩ :: tokens =>
    return (name, ⟨tokens, by simp only [List.length_cons]; omega⟩)
  | tokens => throw (unexpected source opens tokens)
termination_by tokens => (tokens.length, 0)

/-- The arguments after an opening parenthesis, up to the one that closes it. -/
def arguments (opens : List Nat) :
    (tokens : List Lexeme) → Except FormulaError (List String × Rest tokens)
  | ⟨.closeParen, _, _⟩ :: tokens => return ([], ⟨tokens, by grind⟩)
  | tokens => argumentList opens tokens
termination_by tokens => (tokens.length, 3)

/-- One argument or more, up to the closing parenthesis. -/
def argumentList (opens : List Nat) (tokens : List Lexeme) :
    Except FormulaError (List String × Rest tokens) := do
  let (parts, ⟨next, _⟩) ← pieces opens tokens
  if parts = [] then throw (unexpected source opens tokens)
  match hn : next with
  | ⟨.comma, _, _⟩ :: more =>
    let (args, ⟨rest, _⟩) ← argumentList opens more
    return (" ".intercalate parts :: args, ⟨rest, by grind⟩)
  | ⟨.closeParen, _, _⟩ :: rest => return ([" ".intercalate parts], ⟨rest, by grind⟩)
  | _ => throw (unexpected source opens next)
termination_by (tokens.length, 2)

/-- The terms, constants and comparison operators that one argument is made of. -/
def pieces (opens : List Nat) :
    (tokens : List Lexeme) → Except FormulaError (List String × Remainder tokens)
  | ⟨.name name, start, stop⟩ :: tokens => do
    let (first, ⟨next, _⟩) ← term opens (⟨.name name, start, stop⟩ :: tokens)
    let (more, ⟨rest, _⟩) ← pieces opens next
    return (first :: more, ⟨rest, by grind⟩)
  | ⟨.const value, _, _⟩ :: tokens => do
    let (more, ⟨rest, _⟩) ← pieces opens tokens
    return (constantWord value :: more, ⟨rest, by grind⟩)
  | ⟨.compare op, _, _⟩ :: tokens => do
    let (more, ⟨rest, _⟩) ← pieces opens tokens
    return (op.sign :: more, ⟨rest, by grind⟩)
  | tokens => return ([], ⟨tokens, by grind⟩)
termination_by tokens => (tokens.length, 1)

end

/-- A term, or two terms joined by a comparison operator; the second may be a constant. -/
def atom (opens : List Nat) (tokens : List Lexeme) :
    Except FormulaError (Formula × Rest tokens) := do
  let (left, ⟨next, _⟩) ← term source opens tokens
  match hn : next with
  | ⟨.compare op, _, _⟩ :: ⟨.const value, _, _⟩ :: rest =>
    return (.atom (left ++ " " ++ op.sign ++ " " ++ constantWord value), ⟨rest, by grind⟩)
  | ⟨.compare op, _, _⟩ :: ⟨.name name, start, stop⟩ :: more =>
    let (right, ⟨rest, _⟩) ← term source opens (⟨.name name, start, stop⟩ :: more)
    return (.atom (left ++ " " ++ op.sign ++ " " ++ right), ⟨rest, by grind⟩)
  | ⟨.compare _, _, _⟩ :: more => throw (unexpected source opens more)
  | _ => return (.atom left, ⟨next, by grind⟩)

/-! ## Formulas -/

mutual

/-- The operands of a connective, joined by it. -/
def chain (c : Connective) (opens : List Nat) (tokens : List Lexeme) :
    Except FormulaError (Formula × Rest tokens) := do
  let (first, ⟨next, _⟩) ← operand c opens tokens
  let (whole, ⟨rest, _⟩) ← links c opens first next
  return (whole, ⟨rest, by grind⟩)
termination_by (tokens.length, 2 * (5 - c.strength) + 1)

/-- One operand of a connective: a chain of the next tighter one, or negation signs and what they
negate. -/
def operand (c : Connective) (opens : List Nat) (tokens : List Lexeme) :
    Except FormulaError (Formula × Rest tokens) :=
  match c with
  | .iff => chain .implies opens tokens
  | .implies => chain .or opens tokens
  | .or => chain .and opens tokens
  | .and => negation 0 opens tokens
termination_by (tokens.length, 2 * (5 - c.strength))
decreasing_by all_goals exact Prod.Lex.right _ (by decide)

/-- What follows the operand `left` of a connective: the connective and the operands to its right,
or something else, which is left alone.  When the connective groups to the right, all that follows
is one operand, and the heights are checked from the last connective back. -/
def links (c : Connective) (opens : List Nat) (left : Formula) (tokens : List Lexeme) :
    Except FormulaError (Formula × Remainder tokens) :=
  match tokens with
  | ⟨.connective d, offset, stop⟩ :: more =>
    if d = c then
      if c.groupsRight then do
        let (right, ⟨rest, _⟩) ← chain c opens more
        let whole ← joined source (.binary c left right) offset
        return (whole, ⟨rest, by grind⟩)
      else do
        let (right, ⟨next, _⟩) ← operand c opens more
        let whole ← joined source (.binary c left right) offset
        let (whole, ⟨rest, _⟩) ← links c opens whole next
        return (whole, ⟨rest, by grind⟩)
    else return (left, ⟨⟨.connective d, offset, stop⟩ :: more, by grind⟩)
  | tokens => return (left, ⟨tokens, by grind⟩)
termination_by (tokens.length, 0)

/-- Negation signs, of which `depth` stand before these tokens, and what they negate. -/
def negation (depth : Nat) (opens : List Nat) (tokens : List Lexeme) :
    Except FormulaError (Formula × Rest tokens) :=
  match tokens with
  | ⟨.not, offset, _⟩ :: more =>
    if maxNesting < depth + 1 then throw (tooDeep source offset)
    else do
      let (body, ⟨rest, _⟩) ← negation (depth + 1) opens more
      let whole ← joined source (.not body) offset
      return (whole, ⟨rest, by grind⟩)
  | tokens => primary opens tokens
termination_by (tokens.length, 1)

/-- A formula in parentheses, a constant or an atom. -/
def primary (opens : List Nat) (tokens : List Lexeme) :
    Except FormulaError (Formula × Rest tokens) :=
  match tokens with
  | ⟨.openParen, offset, _⟩ :: more => do
    let inside ← opened source opens offset
    let (whole, ⟨next, _⟩) ← chain .iff inside more
    match hn : next with
    | ⟨.closeParen, _, _⟩ :: rest => return (whole, ⟨rest, by grind⟩)
    | _ => throw (unexpected source inside next)
  | ⟨.const value, _, _⟩ :: rest => return (.const value, ⟨rest, by grind⟩)
  | ⟨.name name, start, stop⟩ :: more => atom source opens (⟨.name name, start, stop⟩ :: more)
  | tokens => throw (unexpected source opens tokens)
termination_by (tokens.length, 0)

end

end

end Reading

/-- The formula that a list of tokens stands for, all of it.  The source is quoted in reports. -/
def Formula.ofTokens (source : Reading.Source) (tokens : List Lexeme) :
    Except FormulaError Formula :=
  match tokens with
  | [] => throw .empty
  | tokens => do
    match ← Reading.chain source .iff [] tokens with
    | (formula, ⟨[], _⟩) => return formula
    | (_, ⟨⟨token, offset, _⟩ :: _, _⟩) =>
      if token = .closeParen then throw (.unopened offset)
      else throw (.trailing offset (fragmentFrom source.chars offset))

def Formula.parse (text : String) : Except FormulaError Formula := do
  let read ← tokenize text.toList
  Formula.ofTokens ⟨text.toList, read.stop⟩ read.lexemes

end Elenchus
