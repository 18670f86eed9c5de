import Mathlib.Data.List.DropRight
import Elenchus.Proofs.Argument.Validation

/-!
# What is validated once is not changed again

A validated argument is well formed, and its relationships are named (`Request.settled_validate`).
The records of such an argument are taken over as they are, without a warning
(`Argument.Settled.validate_eq`), and so are those of any part of it.  So validation is idempotent
(`Request.ofParts_validate`).
-/

namespace Elenchus

/-! ## Trimming -/

namespace Text

theorem trim_trim (cs : List Char) : trim (trim cs) = trim cs := by
  have hbegins : trim cs <+: cs.dropWhile isBlank := List.rdropWhile_prefix isBlank _
  have hfirst : (trim cs).dropWhile isBlank = trim cs := by
    refine List.dropWhile_eq_self_iff.mpr fun hpos => ?_
    have hall := List.dropWhile_eq_self_iff.mp (List.dropWhile_idempotent isBlank cs)
    rw [hbegins.getElem hpos]
    exact hall (Nat.lt_of_lt_of_le hpos hbegins.length_le)
  show ((trim cs).dropWhile isBlank).rdropWhile isBlank = trim cs
  rw [hfirst]
  exact List.rdropWhile_idempotent isBlank _

theorem trimmed_trimmed (s : String) : trimmed (trimmed s) = trimmed s := by
  rw [trimmed, trimmed, String.toList_ofList, trim_trim]

/-- A text without white space is as it is when trimmed. -/
theorem trimmed_eq_self {s : String} (h : ∀ c ∈ s.toList, isBlank c = false) : trimmed s = s := by
  have hfirst : s.toList.dropWhile isBlank = s.toList :=
    List.dropWhile_eq_self_iff.mpr fun hpos => by simp [h _ (List.getElem_mem hpos)]
  have hlast : s.toList.rdropWhile isBlank = s.toList :=
    List.rdropWhile_eq_self_iff.mpr fun hne => by simp [h _ (List.getLast_mem hne)]
  show String.ofList ((s.toList.dropWhile isBlank).rdropWhile isBlank) = s
  rw [hfirst, hlast, String.ofList_toList]

theorem isBlank_of_isDigit {c : Char} (h : c.isDigit = true) : isBlank c = false := by
  have hrange : 48 ≤ c.toNat ∧ c.toNat ≤ 57 := Char.isDigit_iff_toNat.mp h
  simp [isBlank, CodeRanges.has, blanks]
  omega

end Text

/-- A text that trimming leaves as it is, and that is not empty. -/
def IsTrimmed (s : String) : Prop := s ≠ "" ∧ Text.trimmed s = s

theorem isTrimmed_of_filled {field : Option String} {s : String} (h : filled field = some s) :
    IsTrimmed s := by
  obtain ⟨text, _, htext⟩ := Option.bind_eq_some_iff.mp h
  unfold idText? at htext
  split at htext
  next => cases htext
  next hne =>
    cases htext
    exact ⟨hne, Text.trimmed_trimmed text⟩

theorem IsTrimmed.filled {s : String} (h : IsTrimmed s) : filled (some s) = some s := by
  rw [Elenchus.filled, Option.bind_some, idText?, h.2, if_neg h.1]

/-- The name that a relationship is given by its position. -/
theorem isTrimmed_position (position : Nat) : IsTrimmed ("#" ++ toString position) := by
  have hchars : ("#" ++ toString position).toList = '#' :: Nat.toDigits 10 position := by
    rw [String.toList_append]
    exact congrArg _ Nat.toList_repr
  constructor
  · intro hempty
    rw [hempty] at hchars
    cases hchars
  · refine Text.trimmed_eq_self fun c hc => ?_
    rw [hchars] at hc
    rcases List.mem_cons.mp hc with rfl | hdigit
    · rfl
    · exact Text.isBlank_of_isDigit (Nat.isDigit_of_mem_toDigits (by decide) (by decide) hdigit)

/-! ## What is accepted is settled -/

/-- A proposition that is taken over as it is, if its identifier is new. -/
structure Proposition.Settled (p : Proposition) : Prop where
  trimmed : IsTrimmed p.id.text
  expressed : ∀ e, p.formalExpression = some e → ¬Text.isBlankText e

/-- A relationship that is taken over as it is, if its endpoints are known. -/
structure Relationship.Settled (r : Relationship) : Prop where
  named : IsTrimmed r.id.text
  source : IsTrimmed r.fromId.text
  target : IsTrimmed r.toId.text

theorem PropositionRecord.settled {r : PropositionRecord} {position : Nat}
    {taken : List PropositionId} {p : Proposition} (h : (r.check position taken).1 = some p) :
    p.Settled := by
  unfold PropositionRecord.check at h
  split at h
  next => cases h
  next idText hid =>
    dsimp only at h
    split at h
    next => cases h
    next =>
      split at h
      next => cases h
      next =>
        cases h
        refine ⟨isTrimmed_of_filled hid, fun e he => ?_⟩
        simpa using (Option.filter_eq_some_iff.mp he).2

theorem checkPropositions_settled (position : Nat) (records : List PropositionRecord) :
    ∀ p ∈ (checkPropositions position {} records).1.propositions, p.Settled := by
  refine @checkPropositions_induction (fun s => ∀ p ∈ s.propositions, p.Settled)
    (fun r position s p hcheck h => ?_) position {} records (List.forall_mem_nil _)
  exact List.forall_mem_append.mpr ⟨h, List.forall_mem_singleton.mpr (r.settled hcheck)⟩

theorem RelationshipRecord.isTrimmed_identify (r : RelationshipRecord) (position : Nat) :
    IsTrimmed (r.identify position).1.text := by
  unfold identify
  split
  next s hid => exact isTrimmed_of_filled hid
  next => exact isTrimmed_position position

theorem RelationshipRecord.settled {r : RelationshipRecord} {position : Nat}
    {known : List PropositionId} {relationship : Relationship}
    (h : (r.check position known).1 = some relationship) : relationship.Settled := by
  unfold RelationshipRecord.check at h
  dsimp only at h
  split at h
  next => cases h
  next => cases h
  next source target hsource htarget =>
    split at h
    next => cases h
    next =>
      split at h
      next => cases h
      next =>
        cases h
        exact ⟨r.isTrimmed_identify position, isTrimmed_of_filled hsource,
          isTrimmed_of_filled htarget⟩

theorem checkRelationships_settled (position : Nat) (known : List PropositionId)
    (records : List RelationshipRecord) :
    ∀ r ∈ (checkRelationships position known records).1, r.Settled := by
  induction records generalizing position with
  | nil => exact List.forall_mem_nil _
  | cons r rs ih =>
      refine List.forall_mem_append.mpr ⟨fun relationship hr => ?_, ih _⟩
      exact r.settled (Option.mem_toList.mp hr)

/-! ## What is settled is accepted -/

/-- A text that names a value in a table as it stands. -/
structure Names {α : Type} (table : List (String × α)) (name : String) (value : α) : Prop where
  filled : filled (some name) = some name
  lookup : table.lookup (Text.trimmed name).toLower = some value

section
variable {α : Type} {table : List (String × α)} {name : String} {value : α}

theorem Names.chosen (h : Names table name value) (field : ChoiceField) :
    chosen field table name = .ok value := by
  simp only [Elenchus.chosen, h.lookup]

theorem Names.choiceNeeded (h : Names table name value) (field : ChoiceField) :
    choiceNeeded (Elenchus.chosen field table) (some name) = .ok value := by
  simp only [Elenchus.choiceNeeded, h.filled, h.chosen field]

theorem Names.choiceOr (h : Names table name value) (subject : WarningSubject)
    (field : ChoiceField) (default : α) :
    choiceOr subject (Elenchus.chosen field table) default (some name) = (value, []) := by
  simp only [Elenchus.choiceOr, h.filled, Option.map_some, h.chosen field]

end

theorem PropositionKind.names_name (kind : PropositionKind) : Names names kind.name kind := by
  cases kind <;> exact ⟨by decide +kernel, by decide +kernel⟩

theorem Confidence.names_name (confidence : Confidence) :
    Names names confidence.name confidence := by
  cases confidence <;> exact ⟨by decide +kernel, by decide +kernel⟩

theorem RelationshipKind.names_name (kind : RelationshipKind) : Names names kind.name kind := by
  cases kind <;> exact ⟨by decide +kernel, by decide +kernel⟩

theorem Strength.names_name (strength : Strength) : Names names strength.name strength := by
  cases strength <;> exact ⟨by decide +kernel, by decide +kernel⟩

theorem Proposition.Settled.check_record {p : Proposition} (h : p.Settled) (position : Nat)
    {taken : List PropositionId} (hnew : p.id ∉ taken) :
    p.record.check position taken = (some p, []) := by
  have hexpression : p.formalExpression.filter (!Text.isBlankText ·) = p.formalExpression := by
    cases he : p.formalExpression with
    | none => rfl
    | some e => simp [Option.filter, h.expressed e he]
  have hkind : choiceNeeded PropositionKind.ofText (some p.kind.name) = .ok p.kind :=
    p.kind.names_name.choiceNeeded .propositionKind
  have hconfidence (subject : WarningSubject) :
      choiceOr subject Confidence.ofText .medium (some p.confidence.name) = (p.confidence, []) :=
    p.confidence.names_name.choiceOr subject .confidence .medium
  simp only [PropositionRecord.check, record, h.trimmed.filled, if_neg hnew, hkind, hconfidence,
    hexpression, Option.getD_some]

theorem Relationship.Settled.check_record {r : Relationship} (h : r.Settled) (position : Nat)
    {known : List PropositionId} (hfrom : r.fromId ∈ known) (hto : r.toId ∈ known) :
    r.record.check position known = (some r, []) := by
  have hknown : missingEndpoints known r.fromId r.toId = [] := by
    refine List.filter_eq_nil_iff.mpr fun id hid => ?_
    have hid : id = r.fromId ∨ id = r.toId := by
      split at hid <;> simp_all
    rcases hid with rfl | rfl <;> simpa
  have hkind : choiceNeeded RelationshipKind.ofText (some r.kind.name) = .ok r.kind :=
    r.kind.names_name.choiceNeeded .relationshipKind
  have hstrength (subject : WarningSubject) :
      choiceOr subject Strength.ofText .moderate (some r.strength.name) = (r.strength, []) :=
    r.strength.names_name.choiceOr subject .strength .moderate
  simp only [RelationshipRecord.check, RelationshipRecord.identify, record, h.named.filled,
    h.source.filled, h.target.filled, hknown, ne_eq, not_true_eq_false, if_false, hkind, hstrength,
    List.append_nil]

/-- Propositions and relationships that are taken over as they are. -/
structure Argument.Settled (arg : Argument) : Prop where
  propositions : ∀ p ∈ arg.propositions, p.Settled
  relationships : ∀ r ∈ arg.relationships, r.Settled
  distinct : arg.ids.Nodup
  joined : ∀ r ∈ arg.relationships, r.fromId ∈ arg.ids ∧ r.toId ∈ arg.ids

theorem Request.settled_validate (r : Request) : r.validate.1.Settled :=
  ⟨checkPropositions_settled 0 _, checkRelationships_settled 0 _ _, r.nodup_ids,
    fun _ h => r.mem_ids_of_relationship h⟩

theorem checkPropositions_records {ps : List Proposition} {s : Register}
    (h : ∀ p ∈ ps, p.Settled) (hdistinct : ((s.propositions ++ ps).map (·.id)).Nodup)
    (position : Nat) :
    (checkPropositions position s (ps.map Proposition.record)).1.propositions =
        s.propositions ++ ps ∧
      (checkPropositions position s (ps.map Proposition.record)).2 = [] := by
  induction ps generalizing position s with
  | nil => exact ⟨(List.append_nil _).symm, rfl⟩
  | cons p ps ih =>
      obtain ⟨hp, hps⟩ := List.forall_mem_cons.mp h
      have hmoved : s.propositions ++ p :: ps = (s.enter p).propositions ++ ps :=
        (List.append_assoc s.propositions [p] ps).symm
      have hnew : p.id ∉ s.index.ids := by
        rw [s.mem_ids]
        rw [List.map_append, List.nodup_append] at hdistinct
        exact fun hid => hdistinct.2.2 _ hid _ List.mem_cons_self rfl
      rw [hmoved] at hdistinct ⊢
      rw [List.map_cons, checkPropositions, hp.check_record position hnew]
      exact ih hps hdistinct (position + 1)

theorem checkRelationships_records {rs : List Relationship} {known : List PropositionId}
    (h : ∀ r ∈ rs, r.Settled) (hjoined : ∀ r ∈ rs, r.fromId ∈ known ∧ r.toId ∈ known)
    (position : Nat) :
    checkRelationships position known (rs.map Relationship.record) = (rs, []) := by
  induction rs generalizing position with
  | nil => rfl
  | cons r rs ih =>
      obtain ⟨hr, hrs⟩ := List.forall_mem_cons.mp h
      obtain ⟨⟨hfrom, hto⟩, hothers⟩ := List.forall_mem_cons.mp hjoined
      rw [List.map_cons, checkRelationships, hr.check_record position hfrom hto]
      dsimp only
      rw [ih hrs hothers (position + 1)]
      rfl

/-- An argument has no more to it than its propositions and relationships. -/
theorem Argument.eq_of_parts {arg other : Argument}
    (hpropositions : arg.propositions = other.propositions)
    (hrelationships : arg.relationships = other.relationships) : arg = other := by
  obtain ⟨propositions, relationships, index, hindex⟩ := arg
  obtain ⟨propositions', relationships', index', hindex'⟩ := other
  cases hpropositions
  cases hrelationships
  cases hindex
  cases hindex'
  rfl

/-- The records of a settled argument are taken over as they are. -/
theorem Argument.Settled.validate_eq {arg : Argument} (h : arg.Settled) :
    arg.request.validate = (arg, []) := by
  obtain ⟨hpropositions, hquiet⟩ :=
    @checkPropositions_records arg.propositions {} h.propositions h.distinct 0
  have hrelationships : checkRelationships 0
      (checkPropositions 0 {} (arg.propositions.map Proposition.record)).1.index.ids
      (arg.relationships.map Relationship.record) = (arg.relationships, []) := by
    refine checkRelationships_records h.relationships (fun r hr => ?_) 0
    rw [Register.mem_ids, Register.mem_ids, hpropositions]
    exact h.joined r hr
  refine Prod.ext (Argument.eq_of_parts hpropositions ?_) ?_
  · exact congrArg Prod.fst hrelationships
  · exact List.append_eq_nil_iff.mpr ⟨hquiet, congrArg Prod.snd hrelationships⟩

/-- A validated argument that is validated again stays as it is: the same propositions and
relationships, the same index, and no warning. -/
theorem Request.ofParts_validate (r : Request) :
    let arg := r.validate.1
    let again := Argument.ofParts arg.propositions arg.relationships
    again.1.propositions = arg.propositions ∧ again.1.relationships = arg.relationships ∧
      again.1.index = arg.index ∧ again.2 = [] := by
  intro arg again
  have hagain : again = (arg, []) := r.settled_validate.validate_eq
  rw [hagain]
  exact ⟨rfl, rfl, rfl, rfl⟩

end Elenchus
