import Elenchus.Contradiction.Core
import Elenchus.Proofs.Budget
import Elenchus.Proofs.Encoding.Restriction
import Elenchus.Proofs.Search.Decision

/-!
# Cores are minimal

A core of a set of propositions is a subset of it that is inconsistent while every proper subset of
the core is consistent (`Encoding.IsCore`).  From a set that was found unsatisfiable a core is
returned, unless the budget refuses a step or a look on the way (`minimalCore_isCore`).

Propositions are left out one after another, in a single pass.  A proposition that is kept was found
necessary for the candidate of that moment, which is larger than the core; it stays necessary,
because what is consistent stays consistent when more is left out.  So every proposition of the core
has been tested, and without any one of them the core is consistent (`shrink_spec`).
-/

namespace Elenchus.Encoding

variable {e : Encoding} {members : List Nat}

/-! ## One search -/

/-- The answer for what some propositions say by themselves is right, and it is given up only when
the budget refuses a step. -/
theorem solveMembers_spec (e : Encoding) (members : List Nat) (budget : Budget) :
    match (e.solveMembers members budget).outcome with
    | .satisfiable _ => e.Consistent members ∧ budget.Grants (e.solveMembers members budget).budget
    | .unsatisfiable _ =>
        ¬e.Consistent members ∧ budget.Grants (e.solveMembers members budget).budget
    | .unknown reason => budget.Refuses reason (e.solveMembers members budget).budget := by
  obtain ⟨_, _, _, _, _, n, hgranted, hstops⟩ :=
    Search.solve_ends {} e.table.size ((e.restrict members).map (·.1)) budget
  have hgrants := Budget.grants_spent hgranted
  change Search.Stops _ (e.solveMembers members budget).budget
    (e.solveMembers members budget).outcome at hstops
  cases houtcome : (e.solveMembers members budget).outcome with
  | satisfiable model =>
      rw [houtcome] at hstops
      exact ⟨⟨_, Search.satisfies_of_solve houtcome⟩, hstops ▸ hgrants⟩
  | unsatisfiable refutation =>
      rw [houtcome] at hstops
      exact ⟨Search.not_satisfies_of_solve houtcome, hstops ▸ hgrants⟩
  | unknown reason =>
      rw [houtcome] at hstops
      exact ⟨_, hgrants, .inl hstops⟩

/-! ## Where the shrinking starts -/

theorem mem_refuted {member : Nat} {refutation positions : List Nat} :
    member ∈ e.refuted refutation positions ↔
      ∃ i ∈ refutation, ∃ position, positions[i]? = some position ∧
        ∃ t, e.clauses[position]? = some t ∧ member ∈ t.tags := by
  have htags (position : Nat) : member ∈ (e.clauses[position]?).elim [] (·.tags) ↔
      ∃ t, e.clauses[position]? = some t ∧ member ∈ t.tags := by
    cases e.clauses[position]? <;> simp
  simp only [refuted, mem_natSet, List.mem_flatMap, List.mem_filterMap, htags]
  constructor
  · rintro ⟨position, ⟨i, hi, hat⟩, htag⟩
    exact ⟨i, hi, position, hat, htag⟩
  · rintro ⟨i, hi, position, hat, htag⟩
    exact ⟨position, ⟨i, hi, hat⟩, htag⟩

/-- The propositions of a refutation are among those that were refuted. -/
theorem refuted_subset (e : Encoding) (members refutation : List Nat) :
    e.refuted refutation ((e.restrict members).map (·.2)) ⊆ members := by
  intro member hmember
  obtain ⟨i, _, position, hi, t, hat, htag⟩ := mem_refuted.mp hmember
  obtain ⟨⟨c, _⟩, hkept, rfl⟩ := List.mem_map.mp (List.mem_of_getElem? hi)
  obtain ⟨t', hat', htags, _⟩ := mem_restrict.mp hkept
  cases hat.symm.trans hat'
  exact htags htag

/-- The start is an inconsistent subset of the propositions that were found unsatisfiable. -/
theorem seed_spec (h : ¬e.Consistent members) (refutation : List Nat) (budget : Budget) :
    budget.Gives (fun start => start ⊆ members ∧ ¬e.Consistent start)
      (e.seed members refutation ((e.restrict members).map (·.2)) budget) := by
  unfold seed
  dsimp only
  split
  · exact ⟨.refl _, List.Subset.refl members, h⟩
  · have hsolve := e.solveMembers_spec
      (e.refuted refutation ((e.restrict members).map (·.2))) budget
    split
    next houtcome =>
      rw [houtcome] at hsolve
      exact ⟨hsolve.2, e.refuted_subset members refutation, hsolve.1⟩
    next houtcome =>
      rw [houtcome] at hsolve
      exact ⟨hsolve.2, List.Subset.refl members, h⟩
    next houtcome =>
      rw [houtcome] at hsolve
      exact hsolve

/-! ## Shrinking -/

/-- A proposition without a clause among those of the set can be left out. -/
theorem Consistent.of_not_owns {member : Nat} (howns : e.owns members member = false)
    (h : e.Consistent (members.filter (· ≠ member))) : e.Consistent members := by
  refine h.of_tags fun t ht htags tag htag => List.mem_filter.mpr ⟨htags htag, ?_⟩
  refine decide_eq_true fun heq => ?_
  rw [owns, List.any_eq_false] at howns
  refine howns t ht ?_
  rw [Bool.and_eq_true, decide_eq_true_eq, List.all_eq_true]
  exact ⟨heq ▸ htag, fun tag htag => decide_eq_true (htags htag)⟩

/-- What is left of an inconsistent candidate is inconsistent, and each tested proposition in it is
necessary. -/
structure Shrunk (e : Encoding) (candidate tested core : List Nat) : Prop where
  subset : core ⊆ candidate
  inconsistent : ¬e.Consistent core
  necessary : ∀ member ∈ tested, member ∈ core → e.Consistent (core.filter (· ≠ member))

/-- A proposition that was found necessary for the candidate is necessary for what is left. -/
theorem Shrunk.kept {candidate tested core : List Nat} {member : Nat}
    (hneeded : e.Consistent (candidate.filter (· ≠ member)))
    (h : e.Shrunk candidate tested core) : e.Shrunk candidate (member :: tested) core :=
  ⟨h.subset, h.inconsistent, List.forall_mem_cons.mpr
    ⟨fun _ => hneeded.mono (List.filter_subset _ h.subset), h.necessary⟩⟩

/-- A proposition that was left out is not in what is left. -/
theorem Shrunk.dropped {candidate tested core : List Nat} {member : Nat}
    (h : e.Shrunk (candidate.filter (· ≠ member)) tested core) :
    e.Shrunk candidate (member :: tested) core := by
  refine ⟨List.Subset.trans h.subset List.filter_sublist.subset, h.inconsistent,
    List.forall_mem_cons.mpr ⟨fun hmem => ?_, h.necessary⟩⟩
  have hne := (List.mem_filter.mp (h.subset hmem)).2
  exact absurd rfl (of_decide_eq_true hne)

/-- One pass over some propositions of an inconsistent candidate. -/
theorem shrink_spec {candidate : List Nat} (h : ¬e.Consistent candidate) (budget : Budget)
    (tested : List Nat) :
    budget.Gives (e.Shrunk candidate tested) (e.shrink candidate budget tested) := by
  induction tested generalizing candidate budget with
  | nil => exact ⟨.refl _, List.Subset.refl candidate, h, List.forall_mem_nil _⟩
  | cons member rest ih =>
      unfold shrink
      split
      next reason hcheck => exact Budget.refuses_of_check hcheck
      next hcheck =>
        have hlook := Budget.grants_looked hcheck
        dsimp only
        split
        next howns =>
          have hsolve := e.solveMembers_spec (candidate.filter (· ≠ member)) budget.looked
          split
          next houtcome =>
            rw [houtcome] at hsolve
            exact (ih hsolve.1 _).imp (hlook.trans hsolve.2) fun _ => .dropped
          next houtcome =>
            rw [houtcome] at hsolve
            exact (ih h _).imp (hlook.trans hsolve.2) fun _ => .kept hsolve.1
          next houtcome =>
            rw [houtcome] at hsolve
            exact hlook.refuses hsolve
        next howns =>
          have hothers : ¬e.Consistent (candidate.filter (· ≠ member)) :=
            fun hothers => h (hothers.of_not_owns (Bool.eq_false_iff.mpr howns))
          exact (ih hothers _).imp hlook fun _ => .dropped

/-! ## Cores -/

/-- An inconsistent set of propositions, some of the given ones, that has no inconsistent proper
subset. -/
structure IsCore (e : Encoding) (members core : List Nat) : Prop where
  nonempty : core ≠ []
  subset : core ⊆ members
  inconsistent : ¬e.Consistent core
  minimal : ∀ others, others ⊆ core → ¬core ⊆ others → e.Consistent others

/-- A pass over the whole candidate ends with a core. -/
theorem Shrunk.isCore (hwell : e.WellTagged) {candidate core : List Nat}
    (h : e.Shrunk candidate candidate core) (hsub : candidate ⊆ members) :
    e.IsCore members core := by
  refine ⟨?_, List.Subset.trans h.subset hsub, h.inconsistent, ?_⟩
  · rintro rfl
    exact h.inconsistent hwell.consistent_nil
  · intro others hothers hproper
    obtain ⟨member, hmember, hout⟩ : ∃ member ∈ core, member ∉ others := by
      simpa [List.subset_def] using hproper
    refine (h.necessary member (h.subset hmember) hmember).mono fun m hm => ?_
    refine List.mem_filter.mpr ⟨hothers hm, decide_eq_true ?_⟩
    rintro rfl
    exact hout hm

/-- From inconsistent propositions a core is returned, unless the budget refuses. -/
theorem minimalCore_spec (hwell : e.WellTagged) (h : ¬e.Consistent members)
    (refutation : List Nat) (budget : Budget) :
    budget.Gives (e.IsCore members)
      (e.minimalCore members refutation ((e.restrict members).map (·.2)) budget) := by
  have hseed := e.seed_spec h refutation budget
  unfold minimalCore
  split
  next reason left heq =>
    rw [heq] at hseed
    exact hseed
  next start left heq =>
    rw [heq] at hseed
    obtain ⟨hgrants, hstart, hbad⟩ := hseed
    refine (e.shrink_spec (fun hgood => hbad hgood.of_contributing) left _).imp hgrants ?_
    exact fun core hshrunk =>
      hshrunk.isCore hwell (List.Subset.trans List.filter_sublist.subset hstart)

/-! ## The order of a core -/

theorem shrink_sublist {candidate tested core : List Nat} {budget left : Budget}
    (h : e.shrink candidate budget tested = (.ok core, left)) : core.Sublist candidate := by
  induction tested generalizing candidate budget with
  | nil =>
      cases h
      exact List.Sublist.refl _
  | cons member rest ih =>
      unfold shrink at h
      split at h
      next => cases h
      next =>
        dsimp only at h
        split at h
        next =>
          split at h
          next => exact (ih h).trans List.filter_sublist
          next => exact ih h
          next => cases h
        next => exact (ih h).trans List.filter_sublist

/-- The start is some of the given propositions, in ascending order. -/
theorem seed_ascending (hmembers : members.Pairwise (· < ·)) {refutation start : List Nat}
    {budget left : Budget}
    (h : e.seed members refutation ((e.restrict members).map (·.2)) budget = (.ok start, left)) :
    start.Pairwise (· < ·) ∧ start ⊆ members := by
  unfold seed at h
  dsimp only at h
  split at h
  next =>
    cases h
    exact ⟨hmembers, List.Subset.refl _⟩
  next =>
    split at h
    next =>
      cases h
      exact ⟨pairwise_natSet _, e.refuted_subset members refutation⟩
    next =>
      cases h
      exact ⟨hmembers, List.Subset.refl _⟩
    next => cases h

theorem minimalCore_ascending (hmembers : members.Pairwise (· < ·)) {refutation core : List Nat}
    {budget left : Budget}
    (h : e.minimalCore members refutation ((e.restrict members).map (·.2)) budget =
      (.ok core, left)) : core.Pairwise (· < ·) := by
  unfold minimalCore at h
  split at h
  next => cases h
  next start after hseed =>
    have hstart := (seed_ascending hmembers hseed).1
    exact ((hstart.sublist List.filter_sublist).sublist (shrink_sublist h))

/-- From propositions of an argument that a search found unsatisfiable a core is returned, unless
the budget refuses. -/
theorem minimalCore_isCore (arg : Argument) (options : EncodingOptions) (members : List Nat)
    (before : Budget) (refutation : List Nat)
    (h : ((arg.encode options).solveMembers members before).outcome = .unsatisfiable refutation)
    (budget : Budget) :
    match (arg.encode options).minimalCore members refutation
        ((arg.encode options).solveMembers members before).positions budget with
    | (.error reason, left) => budget.Refuses reason left
    | (.ok core, left) => budget.Grants left ∧ (arg.encode options).IsCore members core := by
  have hsolve := (arg.encode options).solveMembers_spec members before
  rw [h] at hsolve
  have hcore := minimalCore_spec (arg.wellTagged_encode options) hsolve.1 refutation budget
  change budget.Gives _ ((arg.encode options).minimalCore members refutation
    ((arg.encode options).solveMembers members before).positions budget) at hcore
  split
  next heq =>
    rw [heq] at hcore
    exact hcore
  next heq =>
    rw [heq] at hcore
    exact hcore

/-- Four statements, of which the second and the last contradict each other. -/
def quarrel : Argument where
  propositions :=
    ["a", "b", "c", "d"].map fun id => ⟨⟨id⟩, id, none, .claim, .medium, false, false⟩
  relationships :=
    [⟨⟨"ab"⟩, ⟨"a"⟩, ⟨"b"⟩, .dependsOn, .strong, none⟩,
      ⟨⟨"bd"⟩, ⟨"b"⟩, ⟨"d"⟩, .contradicts, .strong, none⟩]

/-- The search looks at the first statement too, and it is left out. -/
theorem isCore_quarrel :
    ((quarrel.encode {}).solveMembers [0, 1, 3] .unlimited).outcome =
        .unsatisfiable [0, 1, 2, 4] ∧
      (quarrel.encode {}).IsCore [0, 1, 3] [1, 3] := by
  have houtcome : ((quarrel.encode {}).solveMembers [0, 1, 3] .unlimited).outcome =
      .unsatisfiable [0, 1, 2, 4] := by decide +kernel
  have hcore := minimalCore_isCore quarrel {} [0, 1, 3] .unlimited [0, 1, 2, 4] houtcome .unlimited
  have hanswer : ((quarrel.encode {}).minimalCore [0, 1, 3] [0, 1, 2, 4]
      ((quarrel.encode {}).solveMembers [0, 1, 3] .unlimited).positions .unlimited).1.toOption =
        some [1, 3] := by decide +kernel
  refine ⟨houtcome, ?_⟩
  split at hcore
  next heq =>
    rw [heq] at hanswer
    cases hanswer
  next heq =>
    rw [heq] at hanswer
    cases hanswer
    exact hcore.2

end Elenchus.Encoding
