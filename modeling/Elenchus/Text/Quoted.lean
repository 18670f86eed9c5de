import Elenchus.Text.Combining
import Elenchus.Text.Printable

/-!
# Texts in quotes

A text is quoted for a reader: between double quotes, with everything escaped that would not be seen
as it is.  Quotes and backslashes get a backslash; common control characters have an escape of their
own; characters that join the one before them, and those that do not show, are given by their code.
-/

namespace Elenchus.Text

/-- The escape of a character by its code. -/
def codeEscape (c : Char) : List Char :=
  '\\' :: 'u' :: '\x7b' :: (Nat.toDigits 16 c.toNat ++ ['\x7d'])

/-- A character inside quotes. -/
def quotedChar (c : Char) : List Char :=
  if c = '\x00' then ['\\', '0']
  else if c = '\t' then ['\\', 't']
  else if c = '\r' then ['\\', 'r']
  else if c = '\n' then ['\\', 'n']
  else if c = '\\' ∨ c = '"' then ['\\', c]
  else if isCombining c || !isPrintable c then codeEscape c
  else [c]

def quoted (s : String) : String :=
  String.ofList ('"' :: s.toList.flatMap quotedChar ++ ['"'])

end Elenchus.Text
