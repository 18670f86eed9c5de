import Elenchus.Argument.Id
import Elenchus.Clause.Basic

/-!
# Names of variables

A variable stands for an atom or for a whole proposition.  A table gives each name a variable when
it is first asked for, counting up, and the same one ever after.
-/

namespace Elenchus

/-- What a variable stands for. -/
inductive VarName where
  /-- An atom, by its normalised text. -/
  | atom (text : String)
  /-- A proposition as a whole. -/
  | proposition (id : PropositionId)
deriving DecidableEq, Repr

/-- The text of a name; that of a proposition is in brackets. -/
def VarName.text : VarName → String
  | .atom text => text
  | .proposition id => "[" ++ id.text ++ "]"

/-- The names given so far, each at the position of its variable. -/
structure VarTable where
  names : Array VarName
deriving DecidableEq

namespace VarTable

def empty : VarTable := ⟨#[]⟩

def size (table : VarTable) : Nat := table.names.size

/-- The variable of a name, if it has one. -/
def find? (table : VarTable) (name : VarName) : Option Nat := table.names.idxOf? name

/-- The name of a variable, if it is in the table. -/
def name? (table : VarTable) (v : Nat) : Option VarName := table.names[v]?

/-- The variable of a name, a new one if it has none, and the table with it. -/
def intern (table : VarTable) (name : VarName) : Nat × VarTable :=
  match table.find? name with
  | some v => (v, table)
  | none => (table.size, ⟨table.names.push name⟩)

/-- The table with all the names of a list. -/
def internAll (table : VarTable) (names : List VarName) : VarTable :=
  names.foldl (fun table name => (table.intern name).2) table

/-- The text of a variable: its name, or its number if it has none. -/
def varText (table : VarTable) (v : Nat) : String :=
  match table.name? v with
  | some name => name.text
  | none => "v" ++ toString v

def literalText (table : VarTable) (l : Literal) : String :=
  if l.positive then table.varText l.var else "¬" ++ table.varText l.var

def clauseText (table : VarTable) (c : Clause) : String :=
  if c.literals = [] then "⊥" else " ∨ ".intercalate (c.literals.map table.literalText)

end VarTable

end Elenchus
