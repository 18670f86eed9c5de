import Elenchus.Proofs.Argument.Selection

/-!
# What a refused record leaves behind

A record that is refused could as well not be there: the argument is the same without it, and so are
the warnings about all other records, but for the positions by which records without identifier are
named (`Request.validate_omit`).

What a proposition record leaves behind for the records after it is the register, which a refused
record does not change, and its place in the count of the records.  So the main step is that a count
that starts one later changes nothing but the positions in the warnings
(`checkPropositions_succ`).  Relationship records leave behind no more than their place, and that
shows only in later records that are named by it (`checkRelationships_named`).
-/

namespace Elenchus

/-! ## The verdict on a record -/

/-- What becomes of a proposition record that comes after others. -/
def PropositionRecord.verdict (r : PropositionRecord) (before : List PropositionRecord) :
    Option Proposition × List Warning :=
  r.check before.length (Request.validate ⟨before, []⟩).1.index.ids

/-- What becomes of a relationship record that comes after others, in a request with some
proposition records. -/
def RelationshipRecord.verdict (r : RelationshipRecord) (propositions : List PropositionRecord)
    (before : List RelationshipRecord) : Option Relationship × List Warning :=
  r.check before.length (Request.validate ⟨propositions, []⟩).1.index.ids

/-- What a warning about a record is about: its identifier, or else its position. -/
def PropositionRecord.subject (r : PropositionRecord) (position : Nat) : WarningSubject :=
  match filled r.id with
  | some s => .proposition ⟨s⟩
  | none => .propositionAt position

/-- A record that is refused has one warning, and this names the record. -/
theorem PropositionRecord.check_eq_none {r : PropositionRecord} {position : Nat}
    {taken : List PropositionId} (h : (r.check position taken).1 = none) :
    ∃ error, (r.check position taken).2 = [.input (r.subject position) error] := by
  cases hid : filled r.id with
  | none =>
      refine ⟨.missingField .id, ?_⟩
      simp [check, subject, hid]
  | some s =>
      by_cases htaken : PropositionId.mk s ∈ taken
      · refine ⟨.duplicateId ⟨s⟩, ?_⟩
        simp [check, subject, hid, htaken]
      · cases hkind : choiceNeeded PropositionKind.ofText r.kind with
        | error error =>
            refine ⟨error, ?_⟩
            simp [check, subject, hid, htaken, hkind]
        | ok kind => simp [check, hid, htaken, hkind] at h

/-- A relationship record that is refused has a warning. -/
theorem RelationshipRecord.check_ne_nil {r : RelationshipRecord} {position : Nat}
    {known : List PropositionId} (h : (r.check position known).1 = none) :
    (r.check position known).2 ≠ [] := by
  unfold check at h ⊢
  dsimp only at h ⊢
  split
  · simp
  · simp
  · split
    · simp
    · split <;> simp_all

/-! ## A count that starts one later -/

/-- What a warning is about when the record at a position is gone, and the records after it are one
place further to the front. -/
def WarningSubject.without (i : Nat) : WarningSubject → WarningSubject
  | .propositionAt position => .propositionAt (if i < position then position - 1 else position)
  | subject => subject

/-- A warning when the record at a position is gone. -/
def Warning.without (i : Nat) (w : Warning) : Warning := { w with subject := w.subject.without i }

theorem Warning.without_input (i : Nat) (subject : WarningSubject) (error : InputError) :
    (Warning.input subject error).without i = .input (subject.without i) error := rfl

theorem Warning.without_of_subject {i : Nat} {w : Warning} (h : w.subject.without i = w.subject) :
    w.without i = w := by
  show Warning.mk (w.subject.without i) w.cause = w
  rw [h]

theorem WarningSubject.without_succ {i position : Nat} (h : i ≤ position) :
    (propositionAt (position + 1)).without i = .propositionAt position := by
  simp [without, Nat.lt_succ_of_le h]

theorem choiceOr_without {α : Type} (i : Nat) (id : PropositionId)
    (read : String → Except InputError α) (default : α) (field : Option String) :
    (choiceOr (.proposition id) read default field).2.map (·.without i) =
      (choiceOr (.proposition id) read default field).2 := by
  have hsame : ∀ w ∈ (choiceOr (.proposition id) read default field).2, w.without i = w := by
    intro w hw
    refine Warning.without_of_subject ?_
    rw [subject_of_mem_choiceOr hw]
    rfl
  rw [List.map_congr_left hsame, List.map_id']

/-- The place of a record shows in the warnings about it only. -/
theorem PropositionRecord.check_succ (r : PropositionRecord) {i position : Nat}
    (h : i ≤ position) (taken : List PropositionId) :
    r.check position taken =
      ((r.check (position + 1) taken).1,
        (r.check (position + 1) taken).2.map (·.without i)) := by
  cases hid : filled r.id with
  | none => simp [check, hid, Warning.without_input, WarningSubject.without_succ h]
  | some s =>
      by_cases htaken : PropositionId.mk s ∈ taken
      · simp [check, hid, htaken, Warning.without_input, WarningSubject.without]
      · cases hkind : choiceNeeded PropositionKind.ofText r.kind with
        | error error =>
            simp [check, hid, htaken, hkind, Warning.without_input, WarningSubject.without]
        | ok kind => simp [check, hid, htaken, hkind, choiceOr_without]

/-- Records that stand one place further to the front: the same register, and the same warnings but
for the positions. -/
theorem checkPropositions_succ {i position : Nat} (h : i ≤ position) (s : Register)
    (records : List PropositionRecord) :
    checkPropositions position s records =
      ((checkPropositions (position + 1) s records).1,
        (checkPropositions (position + 1) s records).2.map (·.without i)) := by
  induction records generalizing position s with
  | nil => rfl
  | cons r rs ih =>
      have hrest := fun s => ih (Nat.le_succ_of_le h) s
      rw [checkPropositions, checkPropositions, r.check_succ h]
      cases hcheck : r.check (position + 1) s.index.ids with
      | mk taken warnings =>
          cases taken with
          | some p => simp [hrest (s.enter p)]
          | none => simp [hrest s]

/-- Relationship records that are named by their own identifiers are checked alike wherever they
stand. -/
theorem checkRelationships_named {records : List RelationshipRecord}
    (h : ∀ r ∈ records, (filled r.id).isSome) (position other : Nat)
    (known : List PropositionId) :
    checkRelationships position known records = checkRelationships other known records := by
  induction records generalizing position other with
  | nil => rfl
  | cons r rs ih =>
      obtain ⟨hr, hrs⟩ := List.forall_mem_cons.mp h
      have hid : r.identify position = r.identify other := by
        obtain ⟨s, hs⟩ := Option.isSome_iff_exists.mp hr
        simp [RelationshipRecord.identify, hs]
      have hcheck : r.check position known = r.check other known := by
        simp only [RelationshipRecord.check, hid]
      rw [checkRelationships, checkRelationships, hcheck, ih hrs (position + 1) (other + 1)]

/-- Warnings about relationship records hold no positions of propositions. -/
theorem checkRelationships_without (i position : Nat) (known : List PropositionId)
    (records : List RelationshipRecord) :
    (checkRelationships position known records).2.map (·.without i) =
      (checkRelationships position known records).2 := by
  induction records generalizing position with
  | nil => rfl
  | cons r rs ih =>
      have hsame : ∀ w ∈ (r.check position known).2, w.without i = w := by
        intro w hw
        rcases r.subject_of_mem_check hw with hsubject | hsubject <;>
          exact Warning.without_of_subject (by rw [hsubject]; rfl)
      have hown : (r.check position known).2.map (·.without i) = (r.check position known).2 :=
        (List.map_congr_left hsame).trans (List.map_id' _)
      simp [checkRelationships, ih, hown]

/-! ## Requests with and without a record -/

theorem checkRelationships_append (position : Nat) (known : List PropositionId)
    (records more : List RelationshipRecord) :
    let first := checkRelationships position known records
    let second := checkRelationships (position + records.length) known more
    checkRelationships position known (records ++ more) =
      (first.1 ++ second.1, first.2 ++ second.2) := by
  induction records generalizing position with
  | nil => simp [checkRelationships]
  | cons r rs ih =>
      have hnext : position + (r :: rs).length = position + 1 + rs.length := by
        rw [List.length_cons]
        omega
      rw [hnext, List.cons_append]
      simp [checkRelationships, ih (position + 1)]

/-- The records of a request with one proposition record that is refused. -/
theorem checkPropositions_refused {before after : List PropositionRecord} {r : PropositionRecord}
    (h : (r.verdict before).1 = none) :
    let first := checkPropositions 0 {} before
    let second := checkPropositions (before.length + 1) first.1 after
    checkPropositions 0 {} (before ++ r :: after) =
      (second.1, first.2 ++ ((r.verdict before).2 ++ second.2)) := by
  intro first second
  have hcons : checkPropositions before.length first.1 (r :: after) =
      (second.1, (r.verdict before).2 ++ second.2) := by
    rw [checkPropositions]
    change (r.check before.length first.1.index.ids).1 = none at h
    show _ = (second.1, (r.check before.length first.1.index.ids).2 ++ second.2)
    cases hcheck : r.check before.length first.1.index.ids with
    | mk taken warnings =>
        rw [hcheck] at h
        cases h
        rfl
  rw [checkPropositions_append, Nat.zero_add, hcons]

/-- Validation from the two parts of a request. -/
theorem Request.validate_of_check {records : List PropositionRecord} {s : Register}
    {warnings : List Warning} (h : checkPropositions 0 {} records = (s, warnings))
    (relationships : List RelationshipRecord) :
    Request.validate ⟨records, relationships⟩ =
      (⟨s.propositions, (checkRelationships 0 s.index.ids relationships).1, s.index, s.indexed⟩,
        warnings ++ (checkRelationships 0 s.index.ids relationships).2) := by
  rw [validate, h]

/-- Without a proposition record that is refused. -/
theorem Request.validate_refused_proposition {before : List PropositionRecord}
    {r : PropositionRecord} (h : (r.verdict before).1 = none) (after : List PropositionRecord)
    (relationships : List RelationshipRecord) :
    let whole := Request.validate ⟨before ++ r :: after, relationships⟩
    let rest := Request.validate ⟨before ++ after, relationships⟩
    let earlier := (Request.validate ⟨before, []⟩).2
    rest.1 = whole.1 ∧
    ∃ later, whole.2 = earlier ++ (r.verdict before).2 ++ later ∧
      rest.2 = earlier ++ later.map (·.without before.length) := by
  intro whole rest earlier
  let first := checkPropositions 0 {} before
  let second := checkPropositions (before.length + 1) first.1 after
  let third := checkRelationships 0 second.1.index.ids relationships
  have hwhole : whole = (⟨second.1.propositions, third.1, second.1.index, second.1.indexed⟩,
      first.2 ++ ((r.verdict before).2 ++ second.2) ++ third.2) :=
    Request.validate_of_check (checkPropositions_refused h) relationships
  have hrest : rest = (⟨second.1.propositions, third.1, second.1.index, second.1.indexed⟩,
      first.2 ++ second.2.map (·.without before.length) ++ third.2) := by
    refine Request.validate_of_check ?_ relationships
    rw [checkPropositions_append, Nat.zero_add, checkPropositions_succ (Nat.le_refl before.length)]
  have hearlier : earlier = first.2 := List.append_nil _
  rw [hwhole, hrest, hearlier]
  refine ⟨rfl, second.2 ++ third.2, ?_, ?_⟩
  · simp
  · simp [third, checkRelationships_without]

/-- Without a relationship record that is refused, the records after it being named. -/
theorem Request.validate_refused_relationship {propositions : List PropositionRecord}
    {before after : List RelationshipRecord} {r : RelationshipRecord}
    (h : (r.verdict propositions before).1 = none)
    (hnamed : ∀ other ∈ after, (filled other.id).isSome) :
    let whole := Request.validate ⟨propositions, before ++ r :: after⟩
    let rest := Request.validate ⟨propositions, before ++ after⟩
    let earlier := (Request.validate ⟨propositions, before⟩).2
    rest.1 = whole.1 ∧
    ∃ later, whole.2 = earlier ++ (r.verdict propositions before).2 ++ later ∧
      rest.2 = earlier ++ later := by
  intro whole rest earlier
  let known := (checkPropositions 0 {} propositions).1.index.ids
  let first := checkRelationships 0 known before
  let second := checkRelationships before.length known after
  have hwhole : checkRelationships 0 known (before ++ r :: after) =
      (first.1 ++ second.1, first.2 ++ ((r.verdict propositions before).2 ++ second.2)) := by
    have hcons : checkRelationships before.length known (r :: after) =
        ((r.verdict propositions before).1.toList ++
            (checkRelationships (before.length + 1) known after).1,
          (r.verdict propositions before).2 ++
            (checkRelationships (before.length + 1) known after).2) := rfl
    rw [h, checkRelationships_named hnamed (before.length + 1) before.length] at hcons
    rw [checkRelationships_append, Nat.zero_add, hcons]
    rfl
  have hrest : checkRelationships 0 known (before ++ after) =
      (first.1 ++ second.1, first.2 ++ second.2) := by
    rw [checkRelationships_append, Nat.zero_add]
  refine ⟨?_, second.2, ?_, ?_⟩
  · refine Argument.eq_of_parts rfl ?_
    show (checkRelationships 0 known (before ++ after)).1 =
      (checkRelationships 0 known (before ++ r :: after)).1
    rw [hwhole, hrest]
  · show _ ++ (checkRelationships 0 known (before ++ r :: after)).2 = _ ++ first.2 ++ _ ++ _
    rw [hwhole]
    simp
  · show _ ++ (checkRelationships 0 known (before ++ after)).2 = _ ++ first.2 ++ _
    rw [hrest, List.append_assoc]

/-- A record that is refused affects nothing but itself.  Without a proposition record that is
refused the argument is the same, and so are the warnings, but for the one about this record and
the positions of later records.  Without a relationship record that is refused the argument is the
same, and so are the warnings, but for those about this record, if all later relationship records
have identifiers of their own.  Whatever is refused is named by a warning. -/
theorem Request.validate_omit :
    (∀ (before after : List PropositionRecord) (relationships : List RelationshipRecord)
        (r : PropositionRecord), (r.verdict before).1 = none →
      let whole := Request.validate ⟨before ++ r :: after, relationships⟩
      let rest := Request.validate ⟨before ++ after, relationships⟩
      let earlier := (Request.validate ⟨before, []⟩).2
      rest.1 = whole.1 ∧
      ∃ own later, (r.verdict before).2 = [own] ∧ own.subject = r.subject before.length ∧
        whole.2 = earlier ++ own :: later ∧
        rest.2 = earlier ++ later.map (·.without before.length)) ∧
    ∀ (propositions : List PropositionRecord) (before after : List RelationshipRecord)
        (r : RelationshipRecord), (r.verdict propositions before).1 = none →
      let whole := Request.validate ⟨propositions, before ++ r :: after⟩
      let rest := Request.validate ⟨propositions, before ++ after⟩
      let earlier := (Request.validate ⟨propositions, before⟩).2
      let own := (r.verdict propositions before).2
      (own ≠ [] ∧ ∀ w ∈ own, w.subject = .relationshipAt before.length ∨
        w.subject = .relationship (r.identify before.length).1) ∧
      ((∀ other ∈ after, (filled other.id).isSome) →
        rest.1 = whole.1 ∧
        ∃ later, whole.2 = earlier ++ own ++ later ∧ rest.2 = earlier ++ later) := by
  constructor
  · intro before after relationships r hrefused whole rest earlier
    obtain ⟨error, hown⟩ := r.check_eq_none hrefused
    obtain ⟨hargument, later, hwhole, hrest⟩ :=
      Request.validate_refused_proposition hrefused after relationships
    refine ⟨hargument, _, later, hown, rfl, ?_, hrest⟩
    show whole.2 = _
    rw [hwhole, show (r.verdict before).2 = _ from hown]
    simp [earlier]
  · intro propositions before after r hrefused whole rest earlier own
    refine ⟨⟨r.check_ne_nil hrefused, fun w hw => r.subject_of_mem_check hw⟩, fun hnamed => ?_⟩
    exact Request.validate_refused_relationship hrefused hnamed

/-- A record without identifier before another one, and a relationship that leads nowhere before one
that has its own identifier. -/
theorem Request.validate_omit_applies :
    let nameless : PropositionRecord := { kind := some "claim" }
    let claim : PropositionRecord := { id := some "a", kind := some "claim" }
    let astray : RelationshipRecord :=
      { fromId := some "a", toId := some "z", kind := some "supports" }
    let sound : RelationshipRecord :=
      { id := some "r", fromId := some "a", toId := some "a", kind := some "supports" }
    (Request.validate ⟨[claim] ++ [nameless], [sound]⟩).1 =
        (Request.validate ⟨[claim] ++ nameless :: [nameless], [sound]⟩).1 ∧
      (Request.validate ⟨[claim], [] ++ [sound]⟩).1 =
        (Request.validate ⟨[claim], [] ++ astray :: [sound]⟩).1 ∧
      (astray.verdict [claim] []).2 ≠ [] := by
  intro nameless claim astray sound
  obtain ⟨hpropositions, hrelationships⟩ := Request.validate_omit
  have hfirst := hpropositions [claim] [nameless] [sound] nameless (by decide +kernel)
  obtain ⟨⟨hwarned, _⟩, hsecond⟩ := hrelationships [claim] [] [sound] astray (by decide +kernel)
  have hnamed := hsecond (by decide +kernel)
  exact ⟨hfirst.1, hnamed.1, hwarned⟩

end Elenchus
