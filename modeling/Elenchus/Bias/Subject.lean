import Elenchus.Argument.Proposition
import Elenchus.Formula.Parser
import Elenchus.Text.Alphanumeric

/-!
# Subjects

The subjects of an expression are what it speaks about: the words of its atoms, without those that
name a predicate, which are the words before an opening parenthesis.  A word is a run of letters,
digits and low lines; words of one character and the constants are passed over.
-/

namespace Elenchus

namespace Subject

def isWordChar (c : Char) : Bool := Text.isAlphanumeric c || c == '_'

/-- Whether a word that is followed by a character is a subject. -/
def isSubject (word : List Char) (next : Char) : Bool :=
  next ≠ '(' && 1 < word.length && word ≠ "true".toList && word ≠ "false".toList

/-- The subjects of a text, `word` being the word that it continues.  Every text ends as if a blank
followed. -/
def ofChars (word : List Char) : List Char → List (List Char)
  | [] => if isSubject word ' ' then [word] else []
  | c :: cs =>
    if isWordChar c then ofChars (word ++ [c]) cs
    else if isSubject word c then word :: ofChars [] cs
    else ofChars [] cs

end Subject

/-- A text with its place in an ascending list of texts. -/
def insertText (s : String) : List String → List String
  | [] => [s]
  | t :: ts =>
    if s < t then s :: t :: ts
    else if s = t then t :: ts
    else t :: insertText s ts

/-- The texts of a list in ascending order, each once. -/
def textSet (texts : List String) : List String := texts.foldl (fun set s => insertText s set) []

/-- The subjects of a formula, in ascending order. -/
def Formula.subjects (f : Formula) : List String :=
  textSet (f.atoms.flatMap fun atom => (Subject.ofChars [] atom.toList).map String.ofList)

/-- The subjects of a proposition; without an expression that can be read it has none. -/
def Proposition.subjects (p : Proposition) : List String :=
  match p.formalExpression.map Formula.parse with
  | some (.ok f) => f.subjects
  | _ => []

end Elenchus
