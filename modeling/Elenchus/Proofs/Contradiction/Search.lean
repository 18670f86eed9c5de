import Mathlib.Data.List.Defs
import Elenchus.Contradiction.Search
import Elenchus.Proofs.Contradiction.Core

/-!
# The search for contradictions is exact

What is said of a whole argument is right, and the cores that are taken out of it have no
proposition in common (`exact_findContradictions`).  The answer is `unknown` only if the first
search was stopped.  If the search ran to its end and found fewer cores than it might, nothing
contradictory is left: the propositions outside all cores are consistent.

What the loop does is taken apart once, in `Rounds`, with a case for each way to end and one for a
core that is taken out.  It keeps the invariant `Taking`.  The active propositions are those outside
the cores found so far; the first core settles that the whole is unsatisfiable, and the answer is
set with it.
-/

namespace Elenchus.Encoding

/-! ## The loop -/

/-- How the loop goes on from a search of the active propositions, and what it ends with. -/
inductive Rounds (e : Encoding) (limit : Nat) :
    List Nat → MemberResult → ContradictionSearch → ContradictionSearch × Budget → Prop
  | satisfiable {active found search model} (houtcome : found.outcome = .satisfiable model) :
      Rounds e limit active found search (search, found.budget)
  | stopped {active found search reason} (houtcome : found.outcome = .unknown reason) :
      Rounds e limit active found search
        ({ search with
            satisfiability := if search.cores = [] then .unknown else search.satisfiability
            exhausted := some reason }, found.budget)
  | full {active found search refutation} (houtcome : found.outcome = .unsatisfiable refutation)
      (hlimit : limit ≤ search.cores.length) :
      Rounds e limit active found search ({ search with satisfiability := .unsat }, found.budget)
  | interrupted {active found search refutation reason left}
      (houtcome : found.outcome = .unsatisfiable refutation)
      (hlimit : ¬limit ≤ search.cores.length)
      (hcore : e.minimalCore active refutation found.positions found.budget =
        (.error reason, left)) :
      Rounds e limit active found search
        ({ search with satisfiability := .unsat, exhausted := some reason }, left)
  | last {active found search refutation core left}
      (houtcome : found.outcome = .unsatisfiable refutation)
      (hlimit : ¬limit ≤ search.cores.length)
      (hcore : e.minimalCore active refutation found.positions found.budget = (.ok core, left))
      (hlast : limit ≤ search.cores.length + 1) :
      Rounds e limit active found search
        ({ search with satisfiability := .unsat, cores := search.cores ++ [core] }, left)
  | more {active found search refutation core left answer}
      (houtcome : found.outcome = .unsatisfiable refutation)
      (hlimit : ¬limit ≤ search.cores.length)
      (hcore : e.minimalCore active refutation found.positions found.budget = (.ok core, left))
      (hrest : Rounds e limit (active.filter (· ∉ core))
        (e.solveMembers (active.filter (· ∉ core)) left)
        { search with satisfiability := .unsat, cores := search.cores ++ [core] } answer) :
      Rounds e limit active found search answer

section
variable {e : Encoding} {limit : Nat} {active : List Nat} {found : MemberResult}
  {search : ContradictionSearch}

theorem takeCores_satisfiable {model : List Bool} (houtcome : found.outcome = .satisfiable model) :
    e.takeCores limit active found search = (search, found.budget) := by
  rw [takeCores, houtcome]

theorem takeCores_unknown {reason : Exhaustion} (houtcome : found.outcome = .unknown reason) :
    e.takeCores limit active found search =
      ({ search with
          satisfiability := if search.cores = [] then .unknown else search.satisfiability
          exhausted := some reason }, found.budget) := by
  rw [takeCores, houtcome]

theorem takeCores_full {refutation : List Nat}
    (houtcome : found.outcome = .unsatisfiable refutation) (hlimit : limit ≤ search.cores.length) :
    e.takeCores limit active found search =
      ({ search with satisfiability := .unsat }, found.budget) := by
  rw [takeCores, houtcome]
  exact if_pos hlimit

theorem takeCores_interrupted {refutation : List Nat} {reason : Exhaustion} {left : Budget}
    (houtcome : found.outcome = .unsatisfiable refutation)
    (hlimit : ¬limit ≤ search.cores.length)
    (hcore : e.minimalCore active refutation found.positions found.budget =
      (.error reason, left)) :
    e.takeCores limit active found search =
      ({ search with satisfiability := .unsat, exhausted := some reason }, left) := by
  rw [takeCores, houtcome]
  dsimp only
  rw [if_neg hlimit, hcore]

theorem takeCores_last {refutation core : List Nat} {left : Budget}
    (houtcome : found.outcome = .unsatisfiable refutation)
    (hlimit : ¬limit ≤ search.cores.length)
    (hcore : e.minimalCore active refutation found.positions found.budget = (.ok core, left))
    (hlast : limit ≤ search.cores.length + 1) :
    e.takeCores limit active found search =
      ({ search with satisfiability := .unsat, cores := search.cores ++ [core] }, left) := by
  rw [takeCores, houtcome]
  dsimp only
  rw [if_neg hlimit, hcore]
  exact if_pos hlast

theorem takeCores_more {refutation core : List Nat} {left : Budget}
    (houtcome : found.outcome = .unsatisfiable refutation)
    (hlimit : ¬limit ≤ search.cores.length)
    (hcore : e.minimalCore active refutation found.positions found.budget = (.ok core, left))
    (hlast : ¬limit ≤ search.cores.length + 1) :
    e.takeCores limit active found search =
      e.takeCores limit (active.filter (· ∉ core))
        (e.solveMembers (active.filter (· ∉ core)) left)
        { search with satisfiability := .unsat, cores := search.cores ++ [core] } := by
  rw [takeCores, houtcome]
  dsimp only
  rw [if_neg hlimit, hcore]
  exact if_neg hlast

/-- The active propositions without a core, as they stand in the induction along the loop. -/
theorem unattach_filter_attach (active core : List Nat) :
    (active.attach.filter fun ⟨i, _⟩ => i ∉ core).unattach = active.filter (· ∉ core) := by
  have hunattach : (active.attach.filter fun ⟨i, _⟩ => i ∉ core).unattach =
      active.attach.unattach.filter (· ∉ core) :=
    @List.unattach_filter _ _ _ _ _ fun _ _ => rfl
  rw [hunattach, List.unattach_attach]

end

theorem rounds_takeCores (e : Encoding) (limit : Nat) (active : List Nat) (found : MemberResult)
    (search : ContradictionSearch) :
    e.Rounds limit active found search (e.takeCores limit active found search) := by
  induction active, found, search using takeCores.induct e limit with
  | case1 active found search model houtcome =>
      rw [takeCores_satisfiable houtcome]
      exact .satisfiable houtcome
  | case2 active found search reason houtcome =>
      rw [takeCores_unknown houtcome]
      exact .stopped houtcome
  | case3 active found search refutation houtcome hlimit =>
      rw [takeCores_full houtcome hlimit]
      exact .full houtcome hlimit
  | case4 active found search refutation houtcome hlimit reason left hcore =>
      rw [takeCores_interrupted houtcome hlimit hcore]
      exact .interrupted houtcome hlimit hcore
  | case5 active found search refutation houtcome hlimit core left hcore hlast =>
      rw [takeCores_last houtcome hlimit hcore hlast]
      exact .last houtcome hlimit hcore hlast
  | case6 active found search refutation houtcome hlimit core left hcore rest hlast ih =>
      rw [takeCores_more houtcome hlimit hcore hlast]
      rw [show rest = active.filter (· ∉ core) from unattach_filter_attach active core] at ih
      exact .more houtcome hlimit hcore ih

/-- The loop starts with all propositions. -/
theorem rounds_findContradictions (e : Encoding) (budget : Budget) (limit : Nat) :
    e.Rounds limit e.members (e.solveMembers e.members budget) ⟨.sat, [], none⟩
      (e.findContradictions budget limit) :=
  e.rounds_takeCores limit _ _ _

/-! ## What the loop keeps -/

/-- The propositions in none of the cores. -/
def outside (e : Encoding) (cores : List (List Nat)) : List Nat :=
  e.members.filter fun i => ∀ core ∈ cores, i ∉ core

theorem mem_outside {e : Encoding} {cores : List (List Nat)} {i : Nat} :
    i ∈ e.outside cores ↔ i ∈ e.members ∧ ∀ core ∈ cores, i ∉ core := by
  rw [outside, List.mem_filter, decide_eq_true_eq]

theorem outside_nil (e : Encoding) : e.outside [] = e.members :=
  List.filter_eq_self.mpr fun _ _ => decide_eq_true (List.forall_mem_nil _)

theorem outside_append (e : Encoding) (cores : List (List Nat)) (core : List Nat) :
    e.outside (cores ++ [core]) = (e.outside cores).filter (· ∉ core) := by
  unfold outside
  rw [List.filter_filter]
  refine List.filter_congr fun i _ => ?_
  rw [← Bool.decide_and, decide_eq_decide, List.forall_mem_append, List.forall_mem_singleton]
  exact and_comm

/-- Disjoint cores, no more than the limit. -/
structure Packing (e : Encoding) (limit : Nat) (cores : List (List Nat)) : Prop where
  isCore : ∀ core ∈ cores, e.IsCore e.members core
  disjoint : cores.Pairwise List.Disjoint
  length_le : cores.length ≤ limit

/-- A core of the propositions outside all cores is one more. -/
theorem Packing.append {e : Encoding} {limit : Nat} {cores : List (List Nat)} {core : List Nat}
    (h : e.Packing limit cores) (hlt : cores.length < limit)
    (hcore : e.IsCore (e.outside cores) core) : e.Packing limit (cores ++ [core]) := by
  have hout : ∀ i ∈ core, i ∈ e.members ∧ ∀ other ∈ cores, i ∉ other :=
    fun i hi => mem_outside.mp (hcore.subset hi)
  constructor
  · refine List.forall_mem_append.mpr ⟨h.isCore, List.forall_mem_singleton.mpr ?_⟩
    exact ⟨hcore.nonempty, fun i hi => (hout i hi).1, hcore.inconsistent, hcore.minimal⟩
  · refine List.pairwise_append.mpr ⟨h.disjoint, List.pairwise_singleton _ _, ?_⟩
    intro other hother last hlast i hi hi'
    cases List.mem_singleton.mp hlast
    exact (hout i hi').2 other hother hi
  · rw [List.length_append, List.length_singleton]
    exact hlt

/-- An argument with a core is unsatisfiable as a whole. -/
theorem Packing.inconsistent {e : Encoding} {limit : Nat} {cores : List (List Nat)}
    (h : e.Packing limit cores) (hne : cores ≠ []) : ¬e.Consistent e.members := by
  obtain ⟨core, hcore⟩ := List.exists_mem_of_ne_nil cores hne
  exact fun hgood => (h.isCore core hcore).inconsistent (hgood.mono (h.isCore core hcore).subset)

/-- What is established before each search of the loop, of which the first had the answer `first`.
-/
structure Taking (e : Encoding) (limit : Nat) (first : MemberResult) (active : List Nat)
    (found : MemberResult) (search : ContradictionSearch) : Prop where
  packing : e.Packing limit search.cores
  remaining : active = e.outside search.cores
  solved : ∃ budget, found = e.solveMembers active budget
  running : search.exhausted = none
  answer : (search.cores = [] ∧ found = first ∧ search.satisfiability = .sat) ∨
    (search.cores ≠ [] ∧ search.satisfiability = .unsat)

/-- What a search for contradictions ends with, if the answer of its first search was `first`. -/
structure Exact (e : Encoding) (limit : Nat) (first : MemberResult)
    (search : ContradictionSearch) : Prop where
  packing : e.Packing limit search.cores
  sat : search.satisfiability = .sat → e.Consistent e.members
  unsat : search.satisfiability = .unsat → ¬e.Consistent e.members
  unknown : search.satisfiability = .unknown → ∃ reason, first.outcome = .unknown reason
  maximal : search.exhausted = none → search.cores.length < limit →
    e.Consistent (e.outside search.cores)

/-- An unsatisfiable argument, if the search was stopped or may not take another core. -/
theorem Exact.refuted {e : Encoding} {limit : Nat} {first : MemberResult}
    {search : ContradictionSearch} (hpacking : e.Packing limit search.cores)
    (hanswer : search.satisfiability = .unsat) (hbad : ¬e.Consistent e.members)
    (hend : search.exhausted ≠ none ∨ limit ≤ search.cores.length) :
    e.Exact limit first search := by
  refine ⟨hpacking, fun h => ?_, fun _ => hbad, fun h => ?_, fun hrunning hlt => ?_⟩
  · rw [hanswer] at h
    cases h
  · rw [hanswer] at h
    cases h
  · exact hend.elim (absurd hrunning) fun hle => absurd hlt (Nat.not_lt_of_le hle)

section
variable {e : Encoding} {limit : Nat} {first found : MemberResult} {active : List Nat}
  {search : ContradictionSearch}

/-- The active propositions being unsatisfiable, so is the whole. -/
theorem Taking.inconsistent (h : e.Taking limit first active found search) {refutation : List Nat}
    (houtcome : found.outcome = .unsatisfiable refutation) :
    ¬e.Consistent active ∧ ¬e.Consistent e.members := by
  obtain ⟨budget, hfound⟩ := h.solved
  have hsolve := e.solveMembers_spec active budget
  rw [← hfound, houtcome] at hsolve
  refine ⟨hsolve.1, fun hgood => hsolve.1 (hgood.mono fun i hi => ?_)⟩
  rw [h.remaining] at hi
  exact (mem_outside.mp hi).1

/-- What is taken out of unsatisfiable active propositions is a core. -/
theorem Taking.isCore (hwell : e.WellTagged) (h : e.Taking limit first active found search)
    {refutation core : List Nat} {left : Budget}
    (houtcome : found.outcome = .unsatisfiable refutation)
    (hcore : e.minimalCore active refutation found.positions found.budget = (.ok core, left)) :
    e.IsCore (e.outside search.cores) core := by
  obtain ⟨budget, hfound⟩ := h.solved
  have hpositions : found.positions = (e.restrict active).map (·.2) := by
    rw [hfound]
    rfl
  have hgives := minimalCore_spec hwell (h.inconsistent houtcome).1 refutation found.budget
  rw [← hpositions, hcore] at hgives
  exact h.remaining ▸ hgives.2

/-- The active propositions being satisfiable, the search ends, and its answer is right. -/
theorem Taking.satisfiable (h : e.Taking limit first active found search) {model : List Bool}
    (houtcome : found.outcome = .satisfiable model) : e.Exact limit first search := by
  obtain ⟨budget, hfound⟩ := h.solved
  have hsolve := e.solveMembers_spec active budget
  rw [← hfound, houtcome] at hsolve
  have hgood : e.Consistent (e.outside search.cores) := h.remaining ▸ hsolve.1
  refine ⟨h.packing, fun hsat => ?_, fun hunsat => ?_, fun hunknown => ?_, fun _ _ => hgood⟩
  · rcases h.answer with ⟨hnil, _, _⟩ | ⟨_, hanswer⟩
    · rw [hnil, outside_nil] at hgood
      exact hgood
    · rw [hanswer] at hsat
      cases hsat
  · rcases h.answer with ⟨_, _, hanswer⟩ | ⟨hne, _⟩
    · rw [hanswer] at hunsat
      cases hunsat
    · exact h.packing.inconsistent hne
  · rcases h.answer with ⟨_, _, hanswer⟩ | ⟨_, hanswer⟩
    · rw [hanswer] at hunknown
      cases hunknown
    · rw [hanswer] at hunknown
      cases hunknown

/-- A search that is stopped leaves the answer open only if no core is known. -/
theorem Taking.stopped (h : e.Taking limit first active found search) {reason : Exhaustion}
    (houtcome : found.outcome = .unknown reason) :
    e.Exact limit first
      { search with
        satisfiability := if search.cores = [] then .unknown else search.satisfiability
        exhausted := some reason } := by
  rcases h.answer with ⟨hnil, hfirst, _⟩ | ⟨hne, hanswer⟩
  · rw [if_pos hnil]
    refine ⟨h.packing, fun hsat => ?_, fun hunsat => ?_, fun _ => ?_, fun hrunning => ?_⟩
    · cases hsat
    · cases hunsat
    · exact ⟨reason, hfirst ▸ houtcome⟩
    · cases hrunning
  · rw [if_neg hne]
    exact .refuted h.packing hanswer (h.packing.inconsistent hne) (.inl (Option.some_ne_none _))

/-- The loop ends with the right answer and with disjoint cores. -/
theorem Rounds.exact (hwell : e.WellTagged) {answer : ContradictionSearch × Budget}
    (hrounds : e.Rounds limit active found search answer)
    (h : e.Taking limit first active found search) : e.Exact limit first answer.1 := by
  induction hrounds with
  | satisfiable houtcome => exact h.satisfiable houtcome
  | stopped houtcome => exact h.stopped houtcome
  | full houtcome hlimit => exact .refuted h.packing rfl (h.inconsistent houtcome).2 (.inr hlimit)
  | interrupted houtcome hlimit hcore =>
      exact .refuted h.packing rfl (h.inconsistent houtcome).2 (.inl (Option.some_ne_none _))
  | last houtcome hlimit hcore hlast =>
      have hpacking := h.packing.append (Nat.lt_of_not_le hlimit) (h.isCore hwell houtcome hcore)
      refine .refuted hpacking rfl (h.inconsistent houtcome).2 (.inr ?_)
      rw [List.length_append, List.length_singleton]
      exact hlast
  | more houtcome hlimit hcore hrest ih =>
      have hpacking := h.packing.append (Nat.lt_of_not_le hlimit) (h.isCore hwell houtcome hcore)
      refine ih ⟨hpacking, ?_, ⟨_, rfl⟩, h.running, .inr ⟨?_, rfl⟩⟩
      · rw [h.remaining, outside_append]
      · exact List.append_ne_nil_of_right_ne_nil _ (List.cons_ne_nil _ _)

end

/-! ## Searches in well-tagged encodings -/

theorem WellTagged.exact {e : Encoding} (hwell : e.WellTagged) (budget : Budget) (limit : Nat) :
    e.Exact limit (e.solveMembers e.members budget) (e.findContradictions budget limit).1 := by
  have hstart : e.Taking limit (e.solveMembers e.members budget) e.members
      (e.solveMembers e.members budget) ⟨.sat, [], none⟩ :=
    ⟨⟨List.forall_mem_nil _, .nil, Nat.zero_le _⟩, (outside_nil e).symm, ⟨budget, rfl⟩, rfl,
      .inl ⟨rfl, rfl, rfl⟩⟩
  exact (e.rounds_findContradictions budget limit).exact hwell hstart

/-- A search for contradictions in an argument ends with the right answer and with disjoint cores;
if it was not stopped and found fewer cores than it might, nothing contradictory is left. -/
theorem exact_findContradictions (arg : Argument) (options : EncodingOptions) (budget : Budget)
    (limit : Nat) :
    let e := arg.encode options
    let search := (e.findContradictions budget limit).1
    ((∀ core ∈ search.cores, core ≠ []) ∧ search.cores.Pairwise List.Disjoint ∧
      search.cores.length ≤ limit) ∧
    (search.satisfiability = .sat → ∃ a : Assignment, a.satisfies (e.clauses.map (·.clause))) ∧
    (search.satisfiability = .unsat → ¬∃ a : Assignment, a.satisfies (e.clauses.map (·.clause))) ∧
    (search.satisfiability = .unknown →
      ∃ reason, (e.solveMembers e.members budget).outcome = .unknown reason) ∧
    (search.exhausted = none → search.cores.length < limit →
      e.Consistent (e.outside search.cores)) := by
  intro e search
  have hwell : e.WellTagged := arg.wellTagged_encode options
  have hexact : e.Exact limit (e.solveMembers e.members budget) search := hwell.exact budget limit
  refine ⟨⟨fun core hcore => (hexact.packing.isCore core hcore).nonempty, hexact.packing.disjoint,
    hexact.packing.length_le⟩, ?_, ?_, hexact.unknown, hexact.maximal⟩
  · rw [← hwell.consistent_members]
    exact hexact.sat
  · rw [← hwell.consistent_members]
    exact hexact.unsat

/-- A search that leaves the answer open was stopped. -/
theorem WellTagged.exhausted_of_unknown {e : Encoding} (hwell : e.WellTagged) {budget : Budget}
    {limit : Nat} (h : (e.findContradictions budget limit).1.satisfiability = .unknown) :
    (e.findContradictions budget limit).1.exhausted ≠ none := by
  obtain ⟨reason, houtcome⟩ := (hwell.exact budget limit).unknown h
  rw [findContradictions, takeCores, houtcome]
  exact Option.some_ne_none reason

/-- The cores are in ascending order, as the active propositions are. -/
theorem Rounds.ascending {e : Encoding} {limit : Nat} {active : List Nat} {found : MemberResult}
    {search : ContradictionSearch} {answer : ContradictionSearch × Budget}
    (h : e.Rounds limit active found search answer) (hactive : active.Pairwise (· < ·))
    (hfound : ∃ budget, found = e.solveMembers active budget)
    (hcores : ∀ core ∈ search.cores, core.Pairwise (· < ·)) :
    ∀ core ∈ answer.1.cores, core.Pairwise (· < ·) := by
  induction h with
  | satisfiable => exact hcores
  | stopped => exact hcores
  | full => exact hcores
  | interrupted => exact hcores
  | last houtcome hlimit hcore hlast =>
      obtain ⟨_, rfl⟩ := hfound
      exact List.forall_mem_append.mpr
        ⟨hcores, List.forall_mem_singleton.mpr (minimalCore_ascending hactive hcore)⟩
  | more houtcome hlimit hcore hrest ih =>
      obtain ⟨_, rfl⟩ := hfound
      exact ih (hactive.sublist List.filter_sublist) ⟨_, rfl⟩ (List.forall_mem_append.mpr
        ⟨hcores, List.forall_mem_singleton.mpr (minimalCore_ascending hactive hcore)⟩)

theorem findContradictions_ascending (e : Encoding) (budget : Budget) (limit : Nat) :
    ∀ core ∈ (e.findContradictions budget limit).1.cores, core.Pairwise (· < ·) :=
  (e.rounds_findContradictions budget limit).ascending List.pairwise_lt_range ⟨_, rfl⟩
    (List.forall_mem_nil _)

end Elenchus.Encoding
