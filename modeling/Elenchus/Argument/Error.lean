import Elenchus.Argument.Id
import Elenchus.Formula.Error

/-!
# Errors of argument records

What can be wrong with a record of an argument: a field that is needed is missing, an identifier is
used twice, a field holds none of the values it may hold, a relationship names propositions that are
not there, or a formal expression cannot be read.
-/

namespace Elenchus

/-- The fields that a record cannot do without. -/
inductive NeededField where
  | id
  | kind
  | fromId
  | toId
deriving DecidableEq, Repr

def NeededField.name : NeededField → String
  | .id => "id"
  | .kind => "kind"
  | .fromId => "from_id"
  | .toId => "to_id"

/-- The fields that hold one of a few values. -/
inductive ChoiceField where
  | propositionKind
  | confidence
  | relationshipKind
  | strength
deriving DecidableEq, Repr

def ChoiceField.name : ChoiceField → String
  | .propositionKind => "kind"
  | .confidence => "confidence"
  | .relationshipKind => "relationship kind"
  | .strength => "strength"

/-- The causes for which a record, or a part of it, is not taken over. -/
inductive InputError where
  /-- A needed field is absent or blank. -/
  | missingField (field : NeededField)
  /-- An earlier record has the same identifier. -/
  | duplicateId (id : PropositionId)
  /-- A field holds none of its values. -/
  | unknownChoice (field : ChoiceField) (value : String)
  /-- A relationship names propositions that are not there. -/
  | danglingReference (missing : List PropositionId)
  /-- A formal expression cannot be used. -/
  | parseFailure (cause : FormulaError)
deriving DecidableEq, Repr

namespace InputError

def code : InputError → ErrorCode
  | .missingField _ => ⟨.input, 2001, "INPUT_MISSING_FIELD"⟩
  | .duplicateId _ => ⟨.input, 2002, "INPUT_DUPLICATE_ID"⟩
  | .unknownChoice .. => ⟨.input, 2003, "INPUT_UNKNOWN_VARIANT"⟩
  | .danglingReference _ => ⟨.input, 2004, "INPUT_DANGLING_REFERENCE"⟩
  | .parseFailure _ => ⟨.input, 2005, "INPUT_PARSE_FAILURE"⟩

def message : InputError → String
  | .missingField field => "Missing field: " ++ field.name
  | .duplicateId id => "Duplicate id: " ++ id.text
  | .unknownChoice field value => "Unknown " ++ field.name ++ " '" ++ value ++ "'"
  | .danglingReference missing =>
    "Relationship references unknown proposition '"
      ++ ", ".intercalate (missing.map PropositionId.text) ++ "'"
  | .parseFailure cause => "Formal expression could not be parsed: " ++ cause.message

end InputError

/-- The value that a text names, by a table of names in small letters.  White space around the text
and the case of ASCII letters do not matter. -/
def chosen {α : Type} (field : ChoiceField) (names : List (String × α)) (s : String) :
    Except InputError α :=
  let name := (Text.trimmed s).toLower
  match names.lookup name with
  | some value => .ok value
  | none => .error (.unknownChoice field name)

end Elenchus
