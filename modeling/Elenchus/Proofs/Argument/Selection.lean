import Mathlib.Data.List.Forall2
import Elenchus.Proofs.Argument.Stability

/-!
# Which records become propositions

A validated argument is well formed and complete (`Request.wellFormed_validate`).  A record becomes
a proposition exactly when it has an identifier that is not blank and a kind that is known, and no
record that was accepted before it has the same identifier; all that is said of the proposition is
read off that one record.

Both halves rest on what becomes of one record (`PropositionRecord.check_eq_some_iff`).  The records
are taken from the left, and what an earlier record leaves behind for later ones is the register of
the propositions so far, no more.  So the accepted records of a longer list are those of its
beginning, and the last one is tested against them (`Selects.accept`, `Selects.refuse`).
-/

namespace Elenchus

/-! ## Fields -/

theorem Text.trimmed_eq_empty_iff {s : String} : trimmed s = "" ↔ isBlankText s = true := by
  have htrim : trim s.toList = [] ↔ ∀ c ∈ s.toList, isBlank c = true := by
    show (s.toList.dropWhile isBlank).rdropWhile isBlank = [] ↔ _
    rw [List.rdropWhile_eq_nil_iff, ← List.dropWhile_eq_nil_iff, List.dropWhile_idempotent,
      List.dropWhile_eq_nil_iff]
  rw [isBlankText, List.all_eq_true, ← htrim, trimmed, String.ofList_eq_empty_iff]

theorem filled_eq_some_iff {field : Option String} {text : String} :
    filled field = some text ↔
      ∃ s, field = some s ∧ ¬Text.isBlankText s ∧ text = Text.trimmed s := by
  cases field with
  | none => simp [filled]
  | some s =>
      have hfilled : filled (some s) = some text ↔
          ¬Text.isBlankText s ∧ text = Text.trimmed s := by
        rw [filled, Option.bind_some, idText?, ← Text.trimmed_eq_empty_iff]
        by_cases hblank : Text.trimmed s = "" <;> simp [hblank, eq_comm]
      simp [hfilled]

/-- What is named by a table of names in small letters: white space around the name and the case of
its letters do not matter. -/
def Chooses {α : Type} (table : List (String × α)) (field : Option String) (value : α) : Prop :=
  ∃ s, field = some s ∧ table.lookup (Text.trimmed s).toLower = some value

section
variable {α : Type} {table : List (String × α)} {field : Option String} {value : α}

theorem chosen_eq_ok_iff (choice : ChoiceField) {s : String} :
    chosen choice table s = .ok value ↔ table.lookup (Text.trimmed s).toLower = some value := by
  unfold chosen
  dsimp only
  cases table.lookup (Text.trimmed s).toLower <;> simp

theorem chooses_iff (choice : ChoiceField) (hblank : table.lookup "" = none) :
    Chooses table field value ↔
      ∃ s, filled field = some s ∧ chosen choice table s = .ok value := by
  simp only [filled_eq_some_iff, chosen_eq_ok_iff]
  constructor
  · rintro ⟨s, rfl, hlookup⟩
    refine ⟨_, ⟨s, rfl, fun hs => ?_, rfl⟩, by rwa [Text.trimmed_trimmed]⟩
    rw [Text.trimmed_eq_empty_iff.mpr hs, show "".toLower = "" by decide +kernel, hblank] at hlookup
    cases hlookup
  · rintro ⟨_, ⟨s, rfl, _, rfl⟩, hlookup⟩
    exact ⟨s, rfl, by rwa [Text.trimmed_trimmed] at hlookup⟩

theorem choiceNeeded_eq_ok_iff (choice : ChoiceField) (hblank : table.lookup "" = none) :
    choiceNeeded (chosen choice table) field = .ok value ↔ Chooses table field value := by
  rw [chooses_iff choice hblank, choiceNeeded]
  cases filled field <;> simp

/-- A field that names none of the values has the default. -/
theorem choiceOr_eq_iff (choice : ChoiceField) (hblank : table.lookup "" = none)
    (subject : WarningSubject) (default : α) :
    (choiceOr subject (chosen choice table) default field).1 = value ↔
      Chooses table field value ∨ value = default ∧ ∀ other, ¬Chooses table field other := by
  simp only [chooses_iff choice hblank]
  unfold choiceOr
  cases filled field with
  | none => simp [eq_comm]
  | some s =>
      cases hchosen : chosen choice table s <;> simp [hchosen, eq_comm]

end

/-! ## One record -/

/-- The identifier of a record: what its field holds, trimmed, unless that is blank. -/
def PropositionRecord.Named (r : PropositionRecord) (id : PropositionId) : Prop :=
  ∃ s, r.id = some s ∧ ¬Text.isBlankText s ∧ id.text = Text.trimmed s

/-- All that a proposition says is read off a record. -/
structure Proposition.StatedBy (p : Proposition) (r : PropositionRecord) : Prop where
  named : r.Named p.id
  kind : Chooses PropositionKind.names r.kind p.kind
  confidence : Chooses Confidence.names r.confidence p.confidence ∨
    p.confidence = .medium ∧ ∀ other, ¬Chooses Confidence.names r.confidence other
  statement : p.statement = r.statement.getD ""
  formalExpression : p.formalExpression = r.formalExpression.filter (!Text.isBlankText ·)
  isImplicit : p.isImplicit = r.isImplicit.getD false
  isLoadBearing : p.isLoadBearing = r.isLoadBearing.getD false

section
variable {r : PropositionRecord} {id : PropositionId} {p : Proposition}

theorem PropositionRecord.named_iff : r.Named id ↔ filled r.id = some id.text :=
  filled_eq_some_iff.symm

theorem PropositionRecord.Named.eq {other : PropositionId} (h : r.Named id) (h' : r.Named other) :
    id = other := by
  rw [named_iff] at h h'
  cases id
  cases other
  cases h.symm.trans h'
  rfl

theorem kind_eq_ok_iff {kind : PropositionKind} :
    choiceNeeded PropositionKind.ofText r.kind = .ok kind ↔
      Chooses PropositionKind.names r.kind kind :=
  choiceNeeded_eq_ok_iff .propositionKind (by decide +kernel)

theorem confidence_eq_iff (subject : WarningSubject) {confidence : Confidence} :
    (choiceOr subject Confidence.ofText .medium r.confidence).1 = confidence ↔
      Chooses Confidence.names r.confidence confidence ∨
        confidence = .medium ∧ ∀ other, ¬Chooses Confidence.names r.confidence other :=
  @choiceOr_eq_iff _ Confidence.names _ _ .confidence (by decide +kernel) subject .medium

/-- Any record with an identifier and a kind states a proposition. -/
theorem PropositionRecord.exists_statedBy (hnamed : r.Named id) {kind : PropositionKind}
    (hkind : Chooses PropositionKind.names r.kind kind) :
    ∃ p : Proposition, p.StatedBy r ∧ p.id = id :=
  ⟨⟨id, _, _, kind, _, _, _⟩,
    ⟨hnamed, hkind, (confidence_eq_iff .request).mp rfl, rfl, rfl, rfl, rfl⟩, rfl⟩

/-- A record is accepted as the proposition that it states, if the identifier is not taken. -/
theorem PropositionRecord.check_eq_some_iff (position : Nat) (taken : List PropositionId) :
    (r.check position taken).1 = some p ↔ p.StatedBy r ∧ p.id ∉ taken := by
  unfold check
  cases hid : filled r.id with
  | none =>
      refine iff_of_false nofun fun h => ?_
      cases hid.symm.trans (named_iff.mp h.1.named)
  | some idText =>
      have hnamed : r.Named ⟨idText⟩ := named_iff.mpr hid
      dsimp only
      split
      next htaken => exact iff_of_false nofun fun h => h.2 (h.1.named.eq hnamed ▸ htaken)
      next hnew =>
        cases hkind : choiceNeeded PropositionKind.ofText r.kind with
        | error error =>
            refine iff_of_false nofun fun h => ?_
            cases hkind.symm.trans (kind_eq_ok_iff.mpr h.1.kind)
        | ok kind =>
            constructor
            · intro h
              cases h
              exact ⟨⟨hnamed, kind_eq_ok_iff.mp hkind, (confidence_eq_iff _).mp rfl, rfl, rfl, rfl,
                rfl⟩, hnew⟩
            · rintro ⟨h, _⟩
              cases hkind.symm.trans (kind_eq_ok_iff.mpr h.kind)
              have hconfidence := (confidence_eq_iff (.proposition ⟨idText⟩)).mpr h.confidence
              refine congrArg some ?_
              cases p
              rw [Proposition.mk.injEq]
              exact ⟨hnamed.eq h.named, h.statement.symm, h.formalExpression.symm, rfl,
                hconfidence, h.isImplicit.symm, h.isLoadBearing.symm⟩

end

/-! ## All records -/

theorem checkPropositions_append (position : Nat) (s : Register)
    (records more : List PropositionRecord) :
    let first := checkPropositions position s records
    let second := checkPropositions (position + records.length) first.1 more
    checkPropositions position s (records ++ more) = (second.1, first.2 ++ second.2) := by
  induction records generalizing position s with
  | nil => rfl
  | cons r rs ih =>
      have hnext : position + (r :: rs).length = position + 1 + rs.length := by
        rw [List.length_cons]
        omega
      rw [hnext, List.cons_append, checkPropositions, checkPropositions]
      split
      next p warnings _ =>
        dsimp only
        rw [ih, List.append_assoc]
      next warnings _ =>
        dsimp only
        rw [ih, List.append_assoc]

theorem checkPropositions_singleton (position : Nat) (s : Register) (r : PropositionRecord) :
    (checkPropositions position s [r]).1.propositions =
      s.propositions ++ (r.check position s.index.ids).1.toList := by
  unfold checkPropositions
  split
  next heq => rw [heq]; rfl
  next heq => rw [heq]; exact (List.append_nil _).symm

/-- Some records, each with its position, are those that are accepted, and the propositions are what
they state. -/
structure Selects (records : List PropositionRecord) (kept : List (PropositionRecord × Nat))
    (propositions : List Proposition) : Prop where
  /-- The accepted records are in the order in which they came. -/
  sublist : kept.Sublist records.zipIdx
  stated : List.Forall₂ (fun record p => p.StatedBy record.1) kept propositions
  mem_iff : ∀ r i, (r, i) ∈ records.zipIdx →
    ((r, i) ∈ kept ↔
      ∃ id, r.Named id ∧ (∃ kind, Chooses PropositionKind.names r.kind kind) ∧
        ∀ earlier ∈ kept, earlier.2 < i → ¬earlier.1.Named id)

section
variable {records : List PropositionRecord} {kept : List (PropositionRecord × Nat)}
  {propositions : List Proposition}

theorem mem_ids_iff {id : PropositionId}
    (h : List.Forall₂ (fun (record : PropositionRecord × Nat) (p : Proposition) =>
      p.StatedBy record.1) kept propositions) :
    id ∈ propositions.map (·.id) ↔ ∃ record ∈ kept, record.1.Named id := by
  induction h with
  | nil => simp
  | cons hstated _ ih =>
      rw [List.map_cons, List.mem_cons, ih, List.exists_mem_cons_iff]
      refine or_congr ⟨?_, ?_⟩ Iff.rfl
      · rintro rfl
        exact hstated.named
      · exact fun hnamed => hnamed.eq hstated.named

theorem Selects.lt_length (h : Selects records kept propositions) :
    ∀ record ∈ kept, record.2 < records.length := by
  intro record hrecord
  exact List.snd_lt_of_mem_zipIdx (h.sublist.subset hrecord)

theorem mem_zipIdx_concat {r last : PropositionRecord} {i : Nat} :
    (r, i) ∈ (records ++ [last]).zipIdx ↔
      (r, i) ∈ records.zipIdx ∨ r = last ∧ i = records.length := by
  rw [List.zipIdx_append, List.mem_append]
  simp

/-- One more record, which is accepted. -/
theorem Selects.accept (h : Selects records kept propositions) {last : PropositionRecord}
    {p : Proposition} (hstated : p.StatedBy last) (hnew : p.id ∉ propositions.map (·.id)) :
    Selects (records ++ [last]) (kept ++ [(last, records.length)]) (propositions ++ [p]) := by
  refine ⟨?_, List.rel_append h.stated (.cons hstated .nil), fun r i hmem => ?_⟩
  · rw [List.zipIdx_append, Nat.zero_add]
    exact h.sublist.append (List.Sublist.refl _)
  · rcases mem_zipIdx_concat.mp hmem with hearlier | ⟨rfl, rfl⟩
    · have hlt : i < records.length := List.snd_lt_of_mem_zipIdx hearlier
      have hother : (r, i) ≠ (last, records.length) := fun heq => by
        cases heq
        exact Nat.lt_irrefl _ hlt
      rw [List.mem_append, List.mem_singleton, or_iff_left hother, h.mem_iff r i hearlier]
      refine exists_congr fun id => and_congr_right fun _ => and_congr_right fun _ => ?_
      rw [List.forall_mem_append, List.forall_mem_singleton]
      exact (and_iff_left fun hlater => absurd hlater (Nat.not_lt_of_lt hlt)).symm
    · refine iff_of_true (List.mem_append_right _ (List.mem_singleton_self _))
        ⟨p.id, hstated.named, ⟨p.kind, hstated.kind⟩, ?_⟩
      refine List.forall_mem_append.mpr ⟨fun earlier hearlier _ hnamed => ?_, ?_⟩
      · exact hnew ((mem_ids_iff h.stated).mpr ⟨earlier, hearlier, hnamed⟩)
      · exact List.forall_mem_singleton.mpr fun hlt => absurd hlt (Nat.lt_irrefl _)

/-- One more record, which is refused. -/
theorem Selects.refuse (h : Selects records kept propositions) {last : PropositionRecord}
    (hrefused : ∀ p : Proposition, p.StatedBy last → p.id ∈ propositions.map (·.id)) :
    Selects (records ++ [last]) kept propositions := by
  refine ⟨?_, h.stated, fun r i hmem => ?_⟩
  · rw [List.zipIdx_append]
    exact h.sublist.trans (List.sublist_append_left _ _)
  · rcases mem_zipIdx_concat.mp hmem with hearlier | ⟨rfl, rfl⟩
    · exact h.mem_iff r i hearlier
    · refine iff_of_false (fun hkept => Nat.lt_irrefl _ (h.lt_length _ hkept)) ?_
      rintro ⟨id, hnamed, ⟨kind, hkind⟩, hnone⟩
      obtain ⟨p, hstated, rfl⟩ := PropositionRecord.exists_statedBy hnamed hkind
      obtain ⟨earlier, hearlier, hsame⟩ := (mem_ids_iff h.stated).mp (hrefused p hstated)
      exact hnone earlier hearlier (h.lt_length earlier hearlier) hsame

/-- The propositions of some records are what the accepted ones state. -/
theorem selects_checkPropositions (records : List PropositionRecord) :
    ∃ kept, Selects records kept (checkPropositions 0 {} records).1.propositions := by
  induction records using List.reverseRecOn with
  | nil => exact ⟨[], .refl _, .nil, fun _ _ h => absurd h List.not_mem_nil⟩
  | append_singleton records last ih =>
      obtain ⟨kept, hkept⟩ := ih
      rw [checkPropositions_append, Nat.zero_add]
      dsimp only
      generalize (checkPropositions 0 {} records).1 = s at *
      rw [checkPropositions_singleton]
      cases hcheck : (last.check records.length s.index.ids).1 with
      | some p =>
          obtain ⟨hstated, hnew⟩ := (last.check_eq_some_iff _ _).mp hcheck
          exact ⟨_, hkept.accept hstated (mt s.mem_ids.mpr hnew)⟩
      | none =>
          refine ⟨kept, ?_⟩
          rw [Option.toList_none, List.append_nil]
          refine hkept.refuse fun p hstated => ?_
          by_contra hnew
          cases hcheck.symm.trans
            ((last.check_eq_some_iff _ _).mpr ⟨hstated, mt s.mem_ids.mp hnew⟩)

end

/-- A validated argument is well formed, and each proposition is found by its identifier, at its own
position.  A record becomes a proposition exactly when its identifier is not blank, its kind is
known, and no accepted record before it has the same identifier; the propositions are in the order
of the records. -/
theorem Request.wellFormed_validate (r : Request) :
    let arg := r.validate.1
    arg.WellFormed ∧
    (∀ id i, arg.indexOf? id = some i ↔ ∃ p, arg.propositions[i]? = some p ∧ p.id = id) ∧
    ∃ kept, Selects r.propositions kept arg.propositions := by
  intro arg
  have hsettled : arg.Settled := r.settled_validate
  refine ⟨⟨fun p hp => (hsettled.propositions p hp).trimmed, hsettled.distinct, hsettled.joined,
    fun p hp => (hsettled.propositions p hp).expressed⟩, fun id i => ?_, ?_⟩
  · exact Argument.indexOf?_eq_some_iff hsettled.distinct
  · exact selects_checkPropositions r.propositions

end Elenchus
