import Elenchus.Encoding
import Elenchus.Proofs.Argument.Validation

/-!
# What a set of propositions says by itself

A set of propositions is consistent when some assignment satisfies the clauses that come from these
propositions only (`Encoding.Consistent`).  A smaller set says less, so it is consistent if the
larger one is.  What an argument is encoded as is well tagged: every clause comes from a
proposition, and from propositions of the argument only.  So no proposition at all is consistent,
and all of them together say what the whole encoding says.

Propositions that no clause comes from can be left out without a change in what is said.
-/

namespace Elenchus

namespace Encoding

variable {e : Encoding} {members others : List Nat}

/-- Some assignment satisfies all clauses that come from the given propositions only. -/
def Consistent (e : Encoding) (members : List Nat) : Prop :=
  ∃ a : Assignment, a.satisfies ((e.restrict members).map (·.1))

/-- A clause is kept with its position if all its propositions are given. -/
theorem mem_restrict {c : Clause} {position : Nat} :
    (c, position) ∈ e.restrict members ↔
      ∃ t, e.clauses[position]? = some t ∧ t.tags ⊆ members ∧ t.clause = c := by
  simp only [restrict, List.mem_map, List.mem_filter, Prod.exists, Prod.mk.injEq,
    List.mk_mem_zipIdx_iff_getElem?, List.all_eq_true, decide_eq_true_eq]
  constructor
  · rintro ⟨t, _, ⟨hat, htags⟩, rfl, rfl⟩
    exact ⟨t, hat, fun _ htag => htags _ htag, rfl⟩
  · rintro ⟨t, hat, htags, rfl⟩
    exact ⟨t, position, ⟨hat, fun _ htag => htags htag⟩, rfl, rfl⟩

theorem satisfies_restrict {a : Assignment} :
    a.satisfies ((e.restrict members).map (·.1)) ↔
      ∀ t ∈ e.clauses, t.tags ⊆ members → t.clause.holds a = true := by
  constructor
  · intro h t ht htags
    obtain ⟨position, hat⟩ := List.getElem?_of_mem ht
    exact h t.clause (List.mem_map.mpr ⟨_, mem_restrict.mpr ⟨t, hat, htags, rfl⟩, rfl⟩)
  · rintro h c hc
    obtain ⟨⟨c, position⟩, hkept, rfl⟩ := List.mem_map.mp hc
    obtain ⟨t, hat, htags, rfl⟩ := mem_restrict.mp hkept
    exact h t (List.mem_of_getElem? hat) htags

/-- Propositions that bring no clause with them say nothing more. -/
theorem Consistent.of_tags (h : e.Consistent members)
    (hsub : ∀ t ∈ e.clauses, t.tags ⊆ others → t.tags ⊆ members) : e.Consistent others := by
  obtain ⟨a, ha⟩ := h
  rw [satisfies_restrict] at ha
  exact ⟨a, satisfies_restrict.mpr fun t ht htags => ha t ht (hsub t ht htags)⟩

theorem Consistent.mono (h : e.Consistent members) (hsub : others ⊆ members) :
    e.Consistent others :=
  h.of_tags fun _ _ htags => List.Subset.trans htags hsub

/-- Propositions that no clause comes from can be left out. -/
theorem Consistent.of_contributing (h : e.Consistent (members.filter (· ∈ e.contributing))) :
    e.Consistent members := by
  refine h.of_tags fun t ht htags tag htag => List.mem_filter.mpr ⟨htags htag, ?_⟩
  exact decide_eq_true (mem_natSet.mpr (List.mem_flatMap.mpr ⟨t, ht, htag⟩))

/-! ## Well-tagged encodings -/

/-- Every clause comes from a proposition, and from propositions that there are only. -/
structure WellTagged (e : Encoding) : Prop where
  nonempty : ∀ t ∈ e.clauses, t.tags ≠ []
  bounded : ∀ t ∈ e.clauses, t.tags ⊆ e.members

theorem WellTagged.consistent_nil (h : e.WellTagged) : e.Consistent [] := by
  refine ⟨fun _ => true, satisfies_restrict.mpr fun t ht htags => ?_⟩
  exact absurd (List.subset_nil.mp htags) (h.nonempty t ht)

/-- All propositions together say what all clauses say. -/
theorem WellTagged.consistent_members (h : e.WellTagged) :
    e.Consistent e.members ↔ ∃ a : Assignment, a.satisfies (e.clauses.map (·.clause)) := by
  refine exists_congr fun a => ?_
  rw [satisfies_restrict, Assignment.satisfies, List.forall_mem_map]
  exact forall₂_congr fun t ht => ⟨fun hall => hall (h.bounded t ht), fun hholds _ => hholds⟩

end Encoding

/-! ## The tags of an encoding -/

theorem Proposition.tags_encode (p : Proposition) (position : Nat) (table : VarTable) :
    ∀ t ∈ (p.encode position table).clauses, t.tags = [position] := by
  intro t ht
  unfold encode at ht
  split at ht
  · rw [List.mem_singleton.mp ht]
    rfl
  · split at ht
    · rw [List.mem_singleton.mp ht]
      rfl
    · rcases List.mem_append.mp ht with hbody | hlink
      · obtain ⟨c, _, rfl⟩ := List.mem_map.mp hbody
        rfl
      · obtain ⟨c, _, rfl⟩ := List.mem_map.mp hlink
        rfl

theorem tags_encodePropositions (ps : List Proposition) (position : Nat) (table : VarTable) :
    ∀ t ∈ (encodePropositions position table ps).1,
      ∃ i < position + ps.length, t.tags = [i] := by
  induction ps generalizing position table with
  | nil => exact List.forall_mem_nil _
  | cons p ps ih =>
      intro t ht
      rw [List.length_cons]
      rcases List.mem_append.mp ht with hfirst | hrest
      · exact ⟨position, by omega, p.tags_encode position table t hfirst⟩
      · obtain ⟨i, hi, htags⟩ := ih _ _ t hrest
        exact ⟨i, by omega, htags⟩

theorem Relationship.tags_encode {r : Relationship} {arg : Argument} {options : EncodingOptions}
    {position : Nat} {t : TaggedClause} (h : r.encode arg options position = some t) :
    ∃ i j, arg.indexOf? r.fromId = some i ∧ arg.indexOf? r.toId = some j ∧
      t.tags = natSet [i, j] := by
  simp only [encode, Option.bind_eq_bind, Option.bind_eq_some_iff] at h
  obtain ⟨i, hi, j, hj, c, _, hclause⟩ := h
  split at hclause
  · cases hclause
  · cases hclause
    exact ⟨i, j, hi, hj, rfl⟩

theorem Argument.wellTagged_encode (arg : Argument) (options : EncodingOptions) :
    (arg.encode options).WellTagged := by
  have htags : ∀ t ∈ (arg.encode options).clauses,
      ∃ i < arg.size, ∃ j < arg.size, t.tags = natSet [i, j] := by
    intro t ht
    rcases List.mem_append.mp ht with hstated | hjoined
    · obtain ⟨i, hi, htags⟩ := tags_encodePropositions _ _ _ t hstated
      rw [Nat.zero_add] at hi
      refine ⟨i, hi, i, hi, ?_⟩
      rw [htags]
      simp [natSet, insertNat]
    · obtain ⟨⟨r, position⟩, _, hr⟩ := List.mem_filterMap.mp hjoined
      obtain ⟨i, j, hi, hj, htags⟩ := r.tags_encode hr
      exact ⟨i, lt_size_of_indexOf? hi, j, lt_size_of_indexOf? hj, htags⟩
  constructor
  · intro t ht hnil
    obtain ⟨i, _, j, _, heq⟩ := htags t ht
    have hmem : i ∈ t.tags := heq ▸ mem_natSet.mpr (List.mem_cons_self ..)
    rw [hnil] at hmem
    cases hmem
  · intro t ht tag htag
    obtain ⟨i, hi, j, hj, heq⟩ := htags t ht
    rw [heq, mem_natSet] at htag
    refine List.mem_range.mpr ?_
    rcases List.mem_cons.mp htag with rfl | htag
    · exact hi
    · rw [List.mem_singleton.mp htag]
      exact hj

end Elenchus
