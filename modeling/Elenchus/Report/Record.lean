import Elenchus.Datum
import Elenchus.Report.Basic

/-!
# Reports as records

The records in which a report is handed out.  The fields of a record always come in the same order;
a field that holds nothing is left out where the record says so.
-/

namespace Elenchus

def idData (ids : List PropositionId) : Datum := .texts (ids.map (·.text))

def natData (numbers : List Nat) : Datum := .list (numbers.map .nat)

/-- A field that is left out if there is nothing in it. -/
def optionalField {α : Type} (name : String) (encode : α → Datum) :
    Option α → List (String × Datum)
  | none => []
  | some a => [(name, encode a)]

def WarningSubject.toDatum : WarningSubject → Datum
  | .proposition id => .record [("type", .text "proposition"), ("value", .text id.text)]
  | .relationship id => .record [("type", .text "relationship"), ("value", .text id.text)]
  | .propositionAt n => .record [("type", .text "proposition_at"), ("value", .nat n)]
  | .relationshipAt n => .record [("type", .text "relationship_at"), ("value", .nat n)]
  | .request => .record [("type", .text "request")]

def Warning.toDatum (w : Warning) : Datum :=
  .record
    ([("subject", w.subject.toDatum), ("kind", .text w.kind), ("code", .nat w.code.number),
      ("code_name", .text w.code.name), ("message", .text w.message)]
      ++ optionalField "fragment" .text w.fragment?)

/-- The record of a justification, which names its rule. -/
def Justification.toDatum : Justification → Datum
  | .premise ids source =>
    .record [("rule", .text "premise"), ("proposition_ids", idData ids), ("source", .text source)]
  | .assumption => .record [("rule", .text "assumption")]
  | .pureLiteral => .record [("rule", .text "pure_literal")]
  | .unitResolution clause antecedents =>
    .record [("rule", .text "unit_resolution"), ("clause", .nat clause),
      ("antecedents", natData antecedents)]
  | .contradiction positive negative =>
    .record [("rule", .text "contradiction"), ("positive", .nat positive),
      ("negative", .nat negative)]
  | .emptyClause clause => .record [("rule", .text "empty_clause"), ("clause", .nat clause)]
  | .caseAnalysis cases =>
    .record [("rule", .text "case_analysis"),
      ("cases", .list (cases.map fun (first, last) => natData [first, last]))]

def Step.toDatum (table : VarTable) (number : Nat) (s : Step) : Datum :=
  .record [("number", .nat number), ("depth", .nat s.depth),
    ("formula", .text (Derivation.statementText table s.statement)),
    ("justification", s.justification.toDatum)]

def Derivation.lineData (d : Derivation) (table : VarTable) : Datum :=
  .list (d.steps.zipIdx.map fun (s, i) => s.toDatum table (i + 1))

def Contradiction.toDatum (c : Contradiction) : Datum :=
  .record [("id", .text c.id), ("proposition_ids", idData c.involved),
    ("minimal_core", idData c.core), ("severity", .text c.severity.name),
    ("formal_proof",
      .record [("lines", c.derivation.lineData c.table),
        ("text", .text (c.derivation.text c.table))]),
    ("human_explanation", .text c.explanation)]

def FallacyFinding.fields : FallacyFinding → List (String × Datum)
  | .circular path => [("cycle_path", idData path)]
  | .hastyGeneralization | .falseDilemma => []
  | .loadBearing dependents centrality =>
    [("dependent_claims", idData dependents), ("centrality", .float centrality)]

def Fallacy.toDatum (f : Fallacy) : Datum :=
  .record
    ([("id", .text f.id), ("name", .text f.pattern.title), ("pattern_type", .text f.pattern.name),
      ("description", .text f.description), ("affected_node_ids", idData f.affected)]
      ++ f.finding.fields)

def Bias.toDatum (b : Bias) : Datum :=
  .record [("id", .text b.id), ("name", .text b.pattern.title), ("bias_type", .text b.pattern.name),
    ("reference", .text b.pattern.reference), ("description", .text b.description),
    ("affected_node_ids", idData b.affected), ("severity", .text b.severity.name)]

def Annotation.toDatum (a : Annotation) : Datum :=
  .record [("proposition_id", .text a.proposition.text), ("centrality", .float a.centrality),
    ("load_bearing", .bool a.loadBearing), ("evidence_paths", .nat a.evidencePaths),
    ("contradiction_count", .nat a.contradictions), ("vulnerable_assumptions", idData a.vulnerable),
    ("score", .float a.score)]

def Report.toDatum (r : Report) : Datum :=
  .record [("satisfiability", .text r.satisfiability.name),
    ("contradictions", .list (r.contradictions.map Contradiction.toDatum)),
    ("fallacies", .list (r.fallacies.map Fallacy.toDatum)),
    ("biases", .list (r.biases.map Bias.toDatum)),
    ("annotations", .list (r.annotations.map Annotation.toDatum)),
    ("dependency_order", idData r.dependencyOrder),
    ("degraded", .bool r.degraded),
    ("warnings", .list (r.warnings.map Warning.toDatum))]

end Elenchus
