import Elenchus.Argument.Validation

/-!
# What validation establishes

The propositions of a validated argument have different identifiers (`Request.nodup_ids`), for a
record is taken only if its identifier was not taken before.  A relationship is kept only if both
its endpoints are known (`Request.mem_ids_of_relationship`).  So every proposition is found by its
identifier, at its own position (`Argument.indexOf?_eq_some_iff`).  Whatever validation warns of is
one of the records (`Request.validate_local`).

What each acceptance keeps of the register of propositions holds of it in the end
(`checkPropositions_induction`).
-/

namespace Elenchus

/-! ## The index -/

namespace Index

variable {x : Index} {ps : List Proposition} {id : PropositionId} {i : Nat}

theorem entries_foldl (entered : List (Proposition × Nat)) :
    (entered.foldl (fun x (p, i) => x.enter p.id i) x).entries =
      (entered.map fun (p, i) => (p.id, i)).reverse ++ x.entries := by
  induction entered generalizing x with
  | nil => rfl
  | cons first entered ih =>
      rw [List.foldl_cons, ih, List.map_cons, List.reverse_cons, List.append_assoc]
      rfl

theorem mem_entries_ofPropositions :
    (id, i) ∈ (ofPropositions ps).entries ↔ ∃ p, ps[i]? = some p ∧ p.id = id := by
  rw [ofPropositions, entries_foldl, List.append_nil, List.mem_reverse, List.mem_map]
  simp only [Prod.exists, List.mk_mem_zipIdx_iff_getElem?, Prod.mk.injEq]
  constructor
  · rintro ⟨p, _, hp, hid, rfl⟩
    exact ⟨p, hp, hid⟩
  · rintro ⟨p, hp, hid⟩
    exact ⟨p, i, hp, hid, rfl⟩

theorem mem_ids_ofPropositions : id ∈ (ofPropositions ps).ids ↔ id ∈ ps.map (·.id) := by
  rw [ids, List.mem_map, List.mem_map]
  constructor
  · rintro ⟨⟨_, i⟩, hmem, rfl⟩
    obtain ⟨p, hp, hid⟩ := mem_entries_ofPropositions.mp hmem
    exact ⟨p, List.mem_of_getElem? hp, hid⟩
  · rintro ⟨p, hp, hid⟩
    obtain ⟨i, hi⟩ := List.getElem?_of_mem hp
    exact ⟨(id, i), mem_entries_ofPropositions.mpr ⟨p, hi, hid⟩, rfl⟩

theorem mem_entries_of_find? (h : x.find? id = some i) : (id, i) ∈ x.entries := by
  obtain ⟨before, after, hentries, _⟩ := List.lookup_eq_some_iff.mp h
  rw [hentries]
  exact List.mem_append_right _ List.mem_cons_self

theorem exists_find? (h : id ∈ x.ids) : ∃ i, x.find? id = some i := by
  obtain ⟨entry, hentry, rfl⟩ := List.mem_map.mp h
  refine Option.isSome_iff_exists.mp (List.lookup_isSome_iff.mpr ⟨entry, hentry, ?_⟩)
  exact beq_self_eq_true _

end Index

theorem Register.mem_ids (s : Register) {id : PropositionId} :
    id ∈ s.index.ids ↔ id ∈ s.propositions.map (·.id) := by
  rw [s.indexed, Index.mem_ids_ofPropositions]

/-! ## Propositions -/

/-- The identifier of a proposition that is accepted was not taken before. -/
theorem PropositionRecord.not_mem_taken {r : PropositionRecord} {position : Nat}
    {taken : List PropositionId} {p : Proposition}
    (h : (r.check position taken).1 = some p) : p.id ∉ taken := by
  unfold PropositionRecord.check at h
  split at h
  · cases h
  · dsimp only at h
    split at h
    · cases h
    · rename_i hnew
      split at h
      · cases h
      · cases h
        exact hnew

/-- What is kept whenever an accepted proposition is entered holds in the end. -/
theorem checkPropositions_induction {motive : Register → Prop}
    (henter : ∀ (r : PropositionRecord) (position : Nat) (s : Register) (p : Proposition),
      (r.check position s.index.ids).1 = some p → motive s → motive (s.enter p))
    (position : Nat) {s : Register} (records : List PropositionRecord) (h : motive s) :
    motive (checkPropositions position s records).1 := by
  induction records generalizing position s with
  | nil => exact h
  | cons r rs ih =>
      unfold checkPropositions
      split
      next p warnings hcheck => exact ih _ (henter r position s p (congrArg Prod.fst hcheck) h)
      next => exact ih _ h

theorem Request.nodup_ids (r : Request) : r.validate.1.ids.Nodup := by
  refine @checkPropositions_induction (fun s => (s.propositions.map (·.id)).Nodup)
    (fun r position s p hcheck h => ?_) 0 {} r.propositions List.nodup_nil
  have hnew : p.id ∉ s.propositions.map (·.id) := mt s.mem_ids.mpr (r.not_mem_taken hcheck)
  show ((s.propositions ++ [p]).map (·.id)).Nodup
  rw [List.map_append]
  refine List.nodup_append.mpr ⟨h, List.nodup_cons.mpr ⟨List.not_mem_nil, .nil⟩, ?_⟩
  intro id hid other hother hsame
  rw [hsame, List.mem_singleton.mp hother] at hid
  exact hnew hid

/-! ## Relationships -/

theorem missingEndpoints_eq_nil {known : List PropositionId} {source target : PropositionId}
    (h : missingEndpoints known source target = []) : source ∈ known ∧ target ∈ known := by
  have hknown : ∀ id ∈ if source = target then [source] else [source, target], id ∈ known := by
    intro id hid
    have := List.filter_eq_nil_iff.mp h id hid
    simpa using this
  by_cases hsame : source = target
  · rw [if_pos hsame] at hknown
    have hsource := hknown source List.mem_cons_self
    exact ⟨hsource, hsame ▸ hsource⟩
  · rw [if_neg hsame] at hknown
    have htarget : target ∈ [source, target] := List.mem_cons_of_mem _ List.mem_cons_self
    exact ⟨hknown source List.mem_cons_self, hknown target htarget⟩

/-- The endpoints of a relationship that is accepted are known. -/
theorem RelationshipRecord.mem_known {r : RelationshipRecord} {position : Nat}
    {known : List PropositionId} {relationship : Relationship}
    (h : (r.check position known).1 = some relationship) :
    relationship.fromId ∈ known ∧ relationship.toId ∈ known := by
  unfold RelationshipRecord.check at h
  dsimp only at h
  split at h
  · cases h
  · cases h
  · split at h
    · cases h
    · rename_i hmissing
      split at h
      · cases h
      · cases h
        exact missingEndpoints_eq_nil (Decidable.not_not.mp hmissing)

theorem mem_known_of_mem {position : Nat} {known : List PropositionId}
    {records : List RelationshipRecord} {relationship : Relationship}
    (h : relationship ∈ (checkRelationships position known records).1) :
    relationship.fromId ∈ known ∧ relationship.toId ∈ known := by
  induction records generalizing position with
  | nil => exact absurd h List.not_mem_nil
  | cons r rs ih =>
      rcases List.mem_append.mp h with hfirst | hrest
      · exact r.mem_known (Option.mem_toList.mp hfirst)
      · exact ih hrest

theorem Request.mem_ids_of_relationship (r : Request) {relationship : Relationship}
    (h : relationship ∈ r.validate.1.relationships) :
    relationship.fromId ∈ r.validate.1.ids ∧ relationship.toId ∈ r.validate.1.ids := by
  obtain ⟨hfrom, hto⟩ := mem_known_of_mem h
  exact ⟨(Register.mem_ids _).mp hfrom, (Register.mem_ids _).mp hto⟩

/-! ## Warnings -/

/-- A warning about a record, not about the request as a whole. -/
def Warning.Local (w : Warning) : Prop := w.subject ≠ .request

theorem subject_of_mem_choiceOr {α : Type} {subject : WarningSubject}
    {read : String → Except InputError α} {default : α} {field : Option String} {w : Warning}
    (h : w ∈ (choiceOr subject read default field).2) : w.subject = subject := by
  unfold choiceOr at h
  split at h <;> simp at h
  rw [h]
  rfl

theorem PropositionRecord.check_local (r : PropositionRecord) (position : Nat)
    (taken : List PropositionId) : ∀ w ∈ (r.check position taken).2, w.Local := by
  unfold PropositionRecord.check
  split
  · exact List.forall_mem_singleton.mpr WarningSubject.noConfusion
  · dsimp only
    split
    · exact List.forall_mem_singleton.mpr WarningSubject.noConfusion
    · split
      · exact List.forall_mem_singleton.mpr WarningSubject.noConfusion
      · intro w hw hrequest
        exact WarningSubject.noConfusion ((subject_of_mem_choiceOr hw).symm.trans hrequest)

theorem checkPropositions_local (position : Nat) (s : Register)
    (records : List PropositionRecord) :
    ∀ w ∈ (checkPropositions position s records).2, w.Local := by
  induction records generalizing position s with
  | nil => exact List.forall_mem_nil _
  | cons r rs ih =>
      have hone := r.check_local position s.index.ids
      unfold checkPropositions
      split
      next heq =>
        rw [heq] at hone
        exact List.forall_mem_append.mpr ⟨hone, ih _ _⟩
      next heq =>
        rw [heq] at hone
        exact List.forall_mem_append.mpr ⟨hone, ih _ _⟩

/-- Every warning about a relationship record names it, by its identifier or its position. -/
theorem RelationshipRecord.subject_of_mem_check {r : RelationshipRecord} {position : Nat}
    {known : List PropositionId} {w : Warning} (h : w ∈ (r.check position known).2) :
    w.subject = .relationshipAt position ∨ w.subject = .relationship (r.identify position).1 := by
  have hunnamed : ∀ w ∈ (r.identify position).2, w.subject = .relationshipAt position := by
    intro w hw
    cases hid : filled r.id <;> simp [identify, hid] at hw
    rw [hw]
    rfl
  have hrefused : ∀ error, w ∈ (r.identify position).2 ++
      [.input (.relationship (r.identify position).1) error] →
        w.subject = .relationshipAt position ∨
          w.subject = .relationship (r.identify position).1 := by
    intro error hw
    rcases List.mem_append.mp hw with hw | hw
    · exact .inl (hunnamed w hw)
    · rw [List.mem_singleton.mp hw]
      exact .inr rfl
  unfold check at h
  dsimp only at h
  split at h
  · exact hrefused _ h
  · exact hrefused _ h
  · split at h
    · exact hrefused _ h
    · split at h
      · exact hrefused _ h
      · rcases List.mem_append.mp h with hw | hw
        · exact .inl (hunnamed w hw)
        · exact .inr (subject_of_mem_choiceOr hw)

theorem RelationshipRecord.check_local (r : RelationshipRecord) (position : Nat)
    (known : List PropositionId) : ∀ w ∈ (r.check position known).2, w.Local := by
  intro w hw hrequest
  rcases r.subject_of_mem_check hw with hsubject | hsubject <;>
    exact WarningSubject.noConfusion (hsubject.symm.trans hrequest)

theorem checkRelationships_local (position : Nat) (known : List PropositionId)
    (records : List RelationshipRecord) :
    ∀ w ∈ (checkRelationships position known records).2, w.Local := by
  induction records generalizing position with
  | nil => exact List.forall_mem_nil _
  | cons r rs ih => exact List.forall_mem_append.mpr ⟨r.check_local position known, ih _⟩

theorem Request.validate_local (r : Request) : ∀ w ∈ r.validate.2, w.Local :=
  List.forall_mem_append.mpr ⟨checkPropositions_local 0 {} _, checkRelationships_local 0 _ _⟩

/-! ## Positions -/

namespace Argument

variable {arg : Argument} {id : PropositionId} {i : Nat}

theorem getElem?_of_indexOf? (h : arg.indexOf? id = some i) :
    ∃ p, arg.propositions[i]? = some p ∧ p.id = id := by
  refine Index.mem_entries_ofPropositions.mp ?_
  rw [← arg.indexed]
  exact Index.mem_entries_of_find? h

theorem lt_size_of_indexOf? (h : arg.indexOf? id = some i) : i < arg.size := by
  obtain ⟨p, hp, _⟩ := getElem?_of_indexOf? h
  exact (List.getElem?_eq_some_iff.mp hp).1

theorem exists_indexOf? (h : id ∈ arg.ids) : ∃ i, arg.indexOf? id = some i := by
  refine Index.exists_find? ?_
  rwa [arg.indexed, Index.mem_ids_ofPropositions]

/-- A proposition is found at its own position, identifiers being different. -/
theorem indexOf?_eq_some_iff (h : arg.ids.Nodup) :
    arg.indexOf? id = some i ↔ ∃ p, arg.propositions[i]? = some p ∧ p.id = id := by
  constructor
  · exact getElem?_of_indexOf?
  · rintro ⟨p, hp, rfl⟩
    obtain ⟨j, hj⟩ := exists_indexOf? (List.mem_map_of_mem (List.mem_of_getElem? hp))
    obtain ⟨q, hq, hid⟩ := getElem?_of_indexOf? hj
    have hids : arg.ids[j]? = arg.ids[i]? := by
      rw [ids, List.getElem?_map, List.getElem?_map, hq, hp]
      exact congrArg some hid
    have hlt : j < arg.ids.length := by
      rw [ids, List.length_map]
      exact lt_size_of_indexOf? hj
    rw [hj, (List.getElem?_inj hlt h).mp hids]

end Argument

end Elenchus
