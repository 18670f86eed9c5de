import Elenchus.Proofs.Encoding.Meaning
import Elenchus.Proofs.Encoding.Restriction

/-!
# What some propositions say by themselves

Some propositions and relationships are coherent under a valuation of the atoms when the expressions
of the propositions are true and the relationships between them are respected (`Coherent`).  Given
propositions of an argument are consistent exactly when some valuation makes them coherent with the
relationships of the argument (`Argument.consistent_iff`).  So the variables and the clauses of the
encoding do not matter, nor does what else the argument says.

The clauses of a proposition are kept if the proposition is given, and that of a relationship if
both its endpoints are.
-/

namespace Elenchus

namespace Argument

variable {arg : Argument} {members : List Nat} {p : Proposition}

/-- The propositions at the given positions, in order. -/
def chosen (arg : Argument) (members : List Nat) : List Proposition :=
  (arg.propositions.zipIdx.filter fun (_, i) => i ∈ members).map (·.1)

theorem mem_chosen : p ∈ arg.chosen members ↔ ∃ i ∈ members, arg.propositions[i]? = some p := by
  simp only [chosen, List.mem_map, List.mem_filter, decide_eq_true_eq, Prod.exists,
    List.mk_mem_zipIdx_iff_getElem?]
  constructor
  · rintro ⟨_, i, ⟨hp, hi⟩, rfl⟩
    exact ⟨i, hi, hp⟩
  · rintro ⟨i, hi, hp⟩
    exact ⟨p, i, ⟨hp, hi⟩, rfl⟩

theorem chosen_sublist (arg : Argument) (members : List Nat) :
    (arg.chosen members).Sublist arg.propositions := by
  have h : (arg.chosen members).Sublist (arg.propositions.zipIdx.map (·.1)) :=
    List.filter_sublist.map _
  rwa [List.zipIdx_map_fst] at h

/-- All propositions are chosen if all positions are given. -/
theorem mem_chosen_range :
    p ∈ arg.chosen (List.range arg.size) ↔ p ∈ arg.propositions := by
  refine ⟨fun h => (arg.chosen_sublist _).subset h, fun h => mem_chosen.mpr ?_⟩
  obtain ⟨i, hi⟩ := List.getElem?_of_mem h
  exact ⟨i, List.mem_range.mpr (List.getElem?_eq_some_iff.mp hi).1, hi⟩

end Argument

/-- Under a valuation of the atoms the expressions of some propositions are true and the
relationships between them are respected. -/
structure Coherent (options : EncodingOptions) (ps : List Proposition) (rs : List Relationship)
    (value : String → Bool) : Prop where
  asserted : ∀ p ∈ ps, p.Asserted value
  respected : ∀ r ∈ rs, ∀ p ∈ ps, ∀ q ∈ ps, p.id = r.fromId → q.id = r.toId →
    r.Respected options (p.reading value) (q.reading value)

/-- Fewer propositions are coherent too, with any relationships between them that were there. -/
theorem Coherent.mono {options : EncodingOptions} {ps ps' : List Proposition}
    {rs rs' : List Relationship} {value : String → Bool} (h : Coherent options ps rs value)
    (hsub : ps' ⊆ ps) (hjoined : ∀ r ∈ rs', ∀ p ∈ ps', ∀ q ∈ ps', p.id = r.fromId →
      q.id = r.toId → r ∈ rs) : Coherent options ps' rs' value := by
  refine ⟨fun p hp => h.asserted p (hsub hp), fun r hr p hp q hq hsource htarget => ?_⟩
  have hr := hjoined r hr p hp q hq hsource htarget
  exact h.respected r hr p (hsub hp) q (hsub hq) hsource htarget

/-! ## Clauses of given propositions -/

/-- The clauses of a proposition say something only if it is given. -/
theorem Proposition.holds_encode_iff (p : Proposition) (members : List Nat) (position : Nat)
    {table later : VarTable} (h : table.Distinct) (hlater : later.Distinct)
    (hextends : (p.encode position table).table.Extends later) {a : Assignment}
    {value : String → Bool} (hreads : later.Reads a value) :
    (∀ t ∈ (p.encode position table).clauses, t.tags ⊆ members → t.clause.holds a = true) ↔
      (position ∈ members → p.Asserted value ∧ a position = p.reading value) := by
  obtain ⟨_, _, _, hstates⟩ := p.encode_spec position h
  have hmeans : a.satisfies ((p.encode position table).clauses.map (·.clause)) ↔
      p.Asserted value ∧ a position = p.reading value :=
    hstates later hlater hextends a value hreads
  have htags := p.tags_encode position table
  rw [Assignment.satisfies, List.forall_mem_map] at hmeans
  rw [← hmeans]
  constructor
  · intro hall hmember t ht
    exact hall t ht (by simpa [htags t ht] using hmember)
  · intro hall t ht hsub
    exact hall (by simpa [htags t ht] using hsub) t ht

theorem holds_encodePropositions_iff (ps : List Proposition) (members : List Nat) (position : Nat)
    {table later : VarTable} (h : table.Distinct) (hlater : later.Distinct)
    (hextends : (encodePropositions position table ps).2.2.Extends later) {a : Assignment}
    {value : String → Bool} (hreads : later.Reads a value) :
    (∀ t ∈ (encodePropositions position table ps).1, t.tags ⊆ members →
        t.clause.holds a = true) ↔
      ∀ i p, ps[i]? = some p → position + i ∈ members →
        p.Asserted value ∧ a (position + i) = p.reading value := by
  induction ps generalizing position table with
  | nil => exact iff_of_true (List.forall_mem_nil _) fun i p hp => by simp at hp
  | cons p ps ih =>
      obtain ⟨hone, _⟩ := p.encode_spec position h
      obtain ⟨_, hrest, _⟩ := encodePropositions_spec ps (position + 1) hone
      have hfirst := p.holds_encode_iff members position h hlater (hrest.trans hextends) hreads
      have hothers := ih (position + 1) hone hextends
      have hshift : ∀ i, position + (i + 1) = position + 1 + i := fun i => by omega
      change (∀ t ∈ (p.encode position table).clauses ++ _, _) ↔ _
      rw [List.forall_mem_append, hfirst, hothers]
      constructor
      · rintro ⟨hp, hps⟩ i q hq
        cases i with
        | zero =>
            cases hq
            exact hp
        | succ i =>
            rw [hshift]
            exact hps i q hq
      · intro hall
        refine ⟨hall 0 p rfl, fun i q hq => ?_⟩
        rw [← hshift]
        exact hall (i + 1) q hq

/-- The clause of a relationship says something only if both its endpoints are given. -/
theorem Argument.holds_relationships_iff {arg : Argument} (options : EncodingOptions)
    (members : List Nat) (a : Assignment) :
    (∀ t ∈ arg.relationships.zipIdx.filterMap fun (r, i) => r.encode arg options i,
        t.tags ⊆ members → t.clause.holds a = true) ↔
      ∀ r ∈ arg.relationships, ∀ i ∈ members, ∀ j ∈ members, arg.indexOf? r.fromId = some i →
        arg.indexOf? r.toId = some j → r.Respected options (a i) (a j) := by
  have htags : ∀ i j, natSet [i, j] ⊆ members ↔ i ∈ members ∧ j ∈ members := by
    simp [List.subset_def, mem_natSet]
  constructor
  · intro hall r hr i hi j hj hsource htarget
    obtain ⟨position, hposition⟩ := List.getElem?_of_mem hr
    refine (r.encode_spec options position hsource htarget a).mp fun t ht => ?_
    refine hall t (List.mem_filterMap.mpr ⟨(r, position), ?_, ht⟩) ?_
    · exact List.mk_mem_zipIdx_iff_getElem?.mpr hposition
    · obtain ⟨i', j', hsource', htarget', heq⟩ := r.tags_encode ht
      cases hsource.symm.trans hsource'
      cases htarget.symm.trans htarget'
      rw [heq]
      exact (htags i j).mpr ⟨hi, hj⟩
  · intro hall t ht hsub
    obtain ⟨⟨r, position⟩, hr, ht⟩ := List.mem_filterMap.mp ht
    obtain ⟨i, j, hsource, htarget, heq⟩ := r.tags_encode ht
    rw [heq, htags] at hsub
    have hrespected := hall r (List.fst_mem_of_mem_zipIdx hr) i hsub.1 j hsub.2 hsource htarget
    exact (r.encode_spec options position hsource htarget a).mpr hrespected t ht

/-! ## Given propositions -/

namespace Argument

variable {arg : Argument} {options : EncodingOptions}

/-- An assignment satisfies what given propositions say exactly when each of them has its value and
the relationships between them are respected. -/
theorem satisfies_restrict_iff (h : arg.ids.Nodup) (members : List Nat) {a : Assignment}
    {value : String → Bool} (hreads : (arg.encode options).table.Reads a value) :
    a.satisfies (((arg.encode options).restrict members).map (·.1)) ↔
      (∀ i ∈ members, ∀ p, arg.propositions[i]? = some p →
        p.Asserted value ∧ a i = p.reading value) ∧
      ∀ r ∈ arg.relationships, ∀ i ∈ members, ∀ j ∈ members, arg.indexOf? r.fromId = some i →
        arg.indexOf? r.toId = some j → r.Respected options (a i) (a j) := by
  have hpropositions := holds_encodePropositions_iff arg.propositions members 0 (minted_spec h).1
    (table_encode h options).1 (.refl _) hreads
  rw [Encoding.satisfies_restrict]
  change (∀ t ∈ (encodePropositions 0 arg.minted arg.propositions).1 ++ _, _) ↔ _
  rw [List.forall_mem_append, hpropositions, holds_relationships_iff]
  simp only [Nat.zero_add]
  exact and_congr_left fun _ => ⟨fun hall i hi p hp => hall i p hp hi,
    fun hall i p hp hi => hall i hi p hp⟩

theorem reads_assign (arg : Argument) (table : VarTable) (value : String → Bool) :
    table.Reads (arg.assign table value) value := by
  intro text v hfind
  rw [assign, VarTable.name?_of_find? hfind]

theorem assign_eq_reading (h : arg.ids.Nodup) (value : String → Bool) {i : Nat} {p : Proposition}
    (hp : arg.propositions[i]? = some p) :
    arg.assign (arg.encode options).table value i = p.reading value := by
  rw [assign, (table_encode h options).2 i p hp, readings, hp]
  rfl

/-- Given propositions are consistent exactly when some valuation of the atoms makes them coherent.
-/
theorem consistent_iff (h : arg.ids.Nodup) (members : List Nat) :
    (arg.encode options).Consistent members ↔
      ∃ value, Coherent options (arg.chosen members) arg.relationships value := by
  constructor
  · rintro ⟨a, ha⟩
    obtain ⟨hpropositions, hrelationships⟩ := (satisfies_restrict_iff h members
      ((arg.encode options).table.reads_atomValue a)).mp ha
    refine ⟨(arg.encode options).table.atomValue a, fun p hp => ?_, fun r hr p hp q hq => ?_⟩
    · obtain ⟨i, hi, hat⟩ := mem_chosen.mp hp
      exact (hpropositions i hi p hat).1
    · intro hsource htarget
      obtain ⟨i, hi, hp⟩ := mem_chosen.mp hp
      obtain ⟨j, hj, hq⟩ := mem_chosen.mp hq
      rw [← (hpropositions i hi p hp).2, ← (hpropositions j hj q hq).2]
      exact hrelationships r hr i hi j hj ((indexOf?_eq_some_iff h).mpr ⟨p, hp, hsource⟩)
        ((indexOf?_eq_some_iff h).mpr ⟨q, hq, htarget⟩)
  · rintro ⟨value, hvalue⟩
    have hreads := arg.reads_assign (arg.encode options).table value
    refine ⟨_, (satisfies_restrict_iff h members hreads).mpr ⟨fun i hi p hp => ?_, ?_⟩⟩
    · exact ⟨hvalue.asserted p (mem_chosen.mpr ⟨i, hi, hp⟩), assign_eq_reading h value hp⟩
    · intro r hr i hi j hj hsource htarget
      obtain ⟨p, hp, hpid⟩ := (indexOf?_eq_some_iff h).mp hsource
      obtain ⟨q, hq, hqid⟩ := (indexOf?_eq_some_iff h).mp htarget
      rw [assign_eq_reading h value hp, assign_eq_reading h value hq]
      exact hvalue.respected r hr p (mem_chosen.mpr ⟨i, hi, hp⟩) q (mem_chosen.mpr ⟨j, hj, hq⟩)
        hpid hqid

end Argument

end Elenchus
