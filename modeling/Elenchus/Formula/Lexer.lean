import Elenchus.Text.Alphanumeric
import Elenchus.Text.Blank
import Elenchus.Formula.Error

/-!
# From text to tokens

Tokens with a fixed spelling are listed in one table, `spellings`, where a longer spelling comes
before any spelling it starts with.  Every other token is a word: a run of name characters and
hyphens, ended by an arrow `->` even though that starts with a hyphen.  A few words are the
constants, all others are names.

`Token.read` tells the token at the head of a text and how many characters it takes.  `lexemes` goes
through the text once, character by character: `skip` counts the characters that still belong to the
token read last.  The offset at which it comes to an end is that of the end of the text.
-/

namespace Elenchus

/-- The tokens with a fixed spelling.  A spelling stands before every shorter one it begins with, so
the first that fits is the longest. -/
def spellings : List (List Char × Token) :=
  [(['('], .openParen), ([')'], .closeParen), ([','], .comma),
   (['¬'], .not), (['~'], .not),
   (['∧'], .connective .and), (['&', '&'], .connective .and), (['&'], .connective .and),
   (['∨'], .connective .or), (['|', '|'], .connective .or), (['|'], .connective .or),
   (['→'], .connective .implies), (['⇒'], .connective .implies),
   (['-', '>'], .connective .implies), (['=', '>'], .connective .implies),
   (['↔'], .connective .iff), (['⇔'], .connective .iff),
   (['<', '-', '>'], .connective .iff), (['<', '=', '>'], .connective .iff),
   (['⊤'], .const true), (['⊥'], .const false),
   (['≥'], .compare .greaterOrEqual), (['>', '='], .compare .greaterOrEqual),
   (['≤'], .compare .lessOrEqual), (['<', '='], .compare .lessOrEqual),
   (['≠'], .compare .notEqual), (['!', '='], .compare .notEqual),
   (['=', '='], .compare .equal), (['='], .compare .equal),
   (['<'], .compare .less), (['>'], .compare .greater), (['!'], .not)]

/-- The characters of a name besides the hyphen. -/
def isNameChar (c : Char) : Bool :=
  Text.isAlphanumeric c || c ∈ ['_', '.', '\'', '$', '%', '@', '#']

/-- The word at the head of a text: name characters, and hyphens that start no arrow. -/
def word : List Char → List Char
  | [] => []
  | c :: rest =>
    if isNameChar c || (c = '-' && rest.head? ≠ some '>') then c :: word rest else []

def constantSpellings : List (List Char × Bool) :=
  [("true".toList, true), ("True".toList, true), ("TRUE".toList, true),
   ("false".toList, false), ("False".toList, false), ("FALSE".toList, false)]

/-- The token that a word stands for. -/
def Token.ofWord (w : List Char) : Token :=
  match constantSpellings.lookup w with
  | some value => .const value
  | none => .name (String.ofList w)

/-- The token at the head of a text, with the count of its characters. -/
def Token.read (cs : List Char) : Option (Token × Nat) :=
  match spellings.find? fun entry => entry.1.isPrefixOf cs with
  | some (spelling, token) => some (token, spelling.length)
  | none =>
    match word cs with
    | [] => none
    | w => some (.ofWord w, w.length)

/-- The tokens of a text that starts at the offset `pos`, its first `skip` characters belonging to
a token that is read already. -/
def lexemes (skip pos : Nat) : List Char → Except FormulaError Tokens
  | [] => .ok ⟨[], pos + skip⟩
  | c :: rest =>
    match skip with
    | skip + 1 => lexemes skip (pos + 1) rest
    | 0 =>
      if Text.isBlank c then lexemes 0 (pos + 1) rest
      else
        match Token.read (c :: rest) with
        | none => .error (.foreignCharacter c pos)
        | some (token, width) =>
          match lexemes (width - 1) (pos + 1) rest with
          | .error e => .error e
          | .ok later => .ok (later.cons ⟨token, pos, pos + width⟩)

def tokenize (source : List Char) : Except FormulaError Tokens := lexemes 0 0 source

/-- The text from an offset on, trimmed. -/
def fragmentFrom (source : List Char) (offset : Nat) : String :=
  String.ofList (Text.trim (source.drop offset))

end Elenchus
