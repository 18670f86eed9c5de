import Elenchus.Text.Blank

/-!
# Identifiers

Propositions and relationships are named by identifiers.  An identifier is opaque text; reading one
takes off the white space around it, and a text of nothing but white space is none.
-/

namespace Elenchus

structure PropositionId where
  text : String
deriving DecidableEq, Repr, Hashable

structure RelationshipId where
  text : String
deriving DecidableEq, Repr, Hashable

/-- The text of an identifier, unless it is blank. -/
def idText? (s : String) : Option String :=
  if Text.trimmed s = "" then none else some (Text.trimmed s)

/-- The identifier that a text stands for, unless the text is blank. -/
def PropositionId.ofText? (s : String) : Option PropositionId := (idText? s).map .mk

/-- The identifier that a text stands for, unless the text is blank. -/
def RelationshipId.ofText? (s : String) : Option RelationshipId := (idText? s).map .mk

end Elenchus
