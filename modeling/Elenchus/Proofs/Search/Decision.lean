import Elenchus.Proofs.Search.Refutation

/-!
# The search decides

`solve_decides` is the contract of the search, for every list of clauses, every budget and all
options: an answer `satisfiable` comes with a model, an answer `unsatisfiable` is true of all
assignments, and the search gives up only when the budget refuses a step.

A run is taken apart once, in `run_ends`: it gets by moves to a configuration that its answer is
read off.  The invariant of `Refutation.lean` holds at the start and so at the end, and with no
split left it says that the clauses used are unsatisfiable.
-/

namespace Elenchus.Search

/-! ## A run -/

/-- The answer that is read off a configuration. -/
inductive Ends (clauses : List (Clause × Nat)) (k : Config) : Outcome → Prop
  | satisfied : k.failed = false → (∀ c ∈ clauses, k.state.trail.satisfies c.1 = true) →
      Ends clauses k (.satisfiable k.state.trail.model)
  | refuted : k.failed = true → k.splits = [] →
      Ends clauses k
        (.unsatisfiable ((List.range clauses.length).filter (· ∈ k.state.involved)))
  | stopped {reason : Exhaustion} : k.failed = false → Ends clauses k (.unknown reason)

/-- What is left of a budget when a search ends there: if the search was stopped, one more step has
been refused. -/
def Stops (here finish : Budget) : Outcome → Prop
  | .unknown reason => here.spend = (some reason, finish)
  | _ => here = finish

/-- What a run leaves of its budget, which has granted some steps before the run ended. -/
def Charged (start finish : Budget) (outcome : Outcome) : Prop :=
  ∃ n, (∀ i < n, (start.spent i).spend.1 = none) ∧ Stops (start.spent n) finish outcome

theorem charged_start {budget finish : Budget} {outcome : Outcome}
    (h : Stops budget finish outcome) : Charged budget finish outcome :=
  ⟨0, fun _ hi => absurd hi (Nat.not_lt_zero _), h⟩

/-- A step that was granted before a run counts as one of the run. -/
theorem Charged.granted {start after finish : Budget} {outcome : Outcome}
    (hspend : start.spend = (none, after)) (h : Charged after finish outcome) :
    Charged start finish outcome := by
  obtain ⟨n, hn, hlast⟩ := h
  have hspent (n : Nat) : start.spent (n + 1) = after.spent n := by
    rw [Budget.spent, hspend]
  refine ⟨n + 1, ?_, by rw [hspent]; exact hlast⟩
  intro i hi
  cases i with
  | zero => exact congrArg Prod.fst hspend
  | succ i =>
      rw [hspent]
      exact hn i (Nat.lt_of_succ_lt_succ hi)

section
variable {options : Options} {clauses : List (Clause × Nat)} {splits : List Split} {s : State}
  {budget : Budget}

theorem run_eq_of_refused {reason : Exhaustion} {after : Budget}
    (h : budget.spend = (some reason, after)) :
    run options clauses splits s budget = ⟨.unknown reason, s.events.reverse, after⟩ := by
  rw [run.eq_def]
  split
  · rename_i h'
    rw [h] at h'
    cases h'
    rfl
  · rename_i h'
    rw [h] at h'
    cases h'

theorem run_eq_of_granted {after : Budget} (h : budget.spend = (none, after)) :
    run options clauses splits s budget =
      match step options clauses splits s with
      | .satisfied s => ⟨.satisfiable s.trail.model, s.events.reverse, after⟩
      | .refuted s =>
        ⟨.unsatisfiable ((List.range clauses.length).filter (· ∈ s.involved)), s.events.reverse,
          after⟩
      | .next splits s => run options clauses splits s after := by
  rw [run.eq_def]
  split
  · rename_i h'
    rw [h] at h'
    cases h'
  · rename_i h'
    rw [h] at h'
    cases h'
    rfl

/-- A run gets by moves to a configuration that its answer and its log are read off. -/
theorem run_ends (hvalid : Config.Valid clauses ⟨splits, s, false⟩) :
    ∃ k, Moves options clauses ⟨splits, s, false⟩ k ∧
      Ends clauses k (run options clauses splits s budget).outcome ∧
      (run options clauses splits s budget).trace = k.state.events.reverse ∧
      Charged budget (run options clauses splits s budget).budget
        (run options clauses splits s budget).outcome := by
  induction splits, s, budget using run.induct options clauses with
  | case1 splits s budget reason after hspend =>
      rw [run_eq_of_refused hspend]
      exact ⟨_, .refl, .stopped rfl, rfl, charged_start hspend⟩
  | case2 splits s budget after hspend _ s' hstep =>
      have hreaches := reaches_step options splits hvalid.fits
      rw [run_eq_of_granted hspend, hstep]
      rw [hstep] at hreaches
      cases hreaches with
      | satisfied hmoves hall =>
          exact ⟨_, hmoves, .satisfied rfl hall, rfl, .granted hspend (charged_start rfl)⟩
  | case3 splits s budget after hspend _ s' hstep =>
      have hreaches := reaches_step options splits hvalid.fits
      rw [run_eq_of_granted hspend, hstep]
      rw [hstep] at hreaches
      cases hreaches with
      | refuted hmoves =>
          exact ⟨_, hmoves, .refuted rfl rfl, rfl, .granted hspend (charged_start rfl)⟩
  | case4 splits s budget after hspend _ splits' s' hstep ih =>
      have hreaches := reaches_step options splits hvalid.fits
      rw [run_eq_of_granted hspend, hstep]
      rw [hstep] at hreaches
      cases hreaches with
      | next hmoves =>
          obtain ⟨k, hrest, hends, htrace, hcharged⟩ := ih (hmoves.valid hvalid)
          exact ⟨k, hmoves.trans hrest, hends, htrace, hcharged.granted hspend⟩

end

/-! ## A whole search -/

theorem lt_variableBound {clauses : List Clause} {c : Clause} {l : Literal} (hc : c ∈ clauses)
    (hl : l ∈ c.literals) : l.var < variableBound clauses := by
  have hfold : ∀ (ls : List Literal) (bound : Nat),
      bound ≤ ls.foldl (fun bound l => max bound (l.var + 1)) bound ∧
        ∀ l ∈ ls, l.var < ls.foldl (fun bound l => max bound (l.var + 1)) bound := by
    intro ls
    induction ls with
    | nil => exact fun bound => ⟨Nat.le_refl _, List.forall_mem_nil _⟩
    | cons m ms ih =>
        intro bound
        rw [List.foldl_cons]
        obtain ⟨hle, hlt⟩ := ih (max bound (m.var + 1))
        exact ⟨by omega, List.forall_mem_cons.mpr ⟨by omega, hlt⟩⟩
  exact (hfold _ 0).2 l (List.mem_flatMap.mpr ⟨c, hc, hl⟩)

/-- Where a search starts. -/
def Config.start (size : Nat) (clauses : List Clause) : Config :=
  ⟨[], ⟨.start (max size (variableBound clauses)), [], []⟩, false⟩

theorem valid_start (size : Nat) (clauses : List Clause) :
    (Config.start size clauses).Valid clauses.zipIdx := by
  refine ⟨⟨Trail.inStep_start _, ?_⟩, .start, fun h => absurd h Bool.false_ne_true⟩
  intro c hc l hl
  have hc' : c.1 ∈ clauses := List.fst_mem_of_mem_zipIdx hc
  have hlt := lt_variableBound hc' hl
  simp only [Config.start, Trail.start, Array.size_replicate]
  omega

/-- A search gets by moves to a valid configuration that its answer and its log are read off. -/
theorem solve_ends (options : Options) (size : Nat) (clauses : List Clause) (budget : Budget) :
    ∃ k, Moves options clauses.zipIdx (.start size clauses) k ∧ k.Valid clauses.zipIdx ∧
      Ends clauses.zipIdx k (solve options size clauses budget).outcome ∧
      (solve options size clauses budget).trace = k.state.events.reverse ∧
      Charged budget (solve options size clauses budget).budget
        (solve options size clauses budget).outcome := by
  obtain ⟨k, hmoves, hends⟩ := run_ends (valid_start size clauses)
  exact ⟨k, hmoves, hmoves.valid (valid_start size clauses), hends⟩

section
variable {options : Options} {size : Nat} {clauses : List Clause} {budget : Budget}

/-- The model that a search answers with is one. -/
theorem satisfies_of_solve {model : List Bool}
    (h : (solve options size clauses budget).outcome = .satisfiable model) :
    (Assignment.ofValues model).satisfies clauses := by
  obtain ⟨k, _, _, hends, _⟩ := solve_ends options size clauses budget
  rw [h] at hends
  cases hends with
  | satisfied _ hall =>
      intro c hc
      obtain ⟨position, hat⟩ := List.getElem?_of_mem hc
      exact Trail.holds_model (hall (c, position) (List.mk_mem_zipIdx_iff_getElem?.mpr hat))

/-- No assignment satisfies the clauses at the positions of a refutation. -/
theorem not_satisfiesAt_of_solve {refutation : List Nat}
    (h : (solve options size clauses budget).outcome = .unsatisfiable refutation)
    (a : Assignment) : ¬SatisfiesAt clauses.zipIdx a refutation := by
  obtain ⟨k, _, hvalid, hends, _⟩ := solve_ends options size clauses budget
  rw [h] at hends
  cases hends with
  | refuted hfailed hsplits =>
      intro ha
      have hrefuted := hvalid.refuted hfailed
      rw [hsplits] at hrefuted
      refine hrefuted a (fun c hc hp => ha c hc ?_) (List.forall_mem_nil _)
      have hlt : c.2 < clauses.zipIdx.length := by
        rw [List.length_zipIdx]
        exact (List.getElem?_eq_some_iff.mp (List.mem_zipIdx_iff_getElem?.mp hc)).1
      exact List.mem_filter.mpr ⟨List.mem_range.mpr hlt, decide_eq_true hp⟩

/-- Clauses that are found unsatisfiable have no model. -/
theorem not_satisfies_of_solve {refutation : List Nat}
    (h : (solve options size clauses budget).outcome = .unsatisfiable refutation) :
    ¬∃ a : Assignment, a.satisfies clauses := by
  rintro ⟨a, ha⟩
  exact not_satisfiesAt_of_solve h a fun c hc _ => ha c.1 (List.fst_mem_of_mem_zipIdx hc)

end

/-- The search decides: a model has a value for every variable and satisfies all clauses, a failure
says that there is none, and a search gives up only with the reason for which the budget refused it
a step. -/
theorem solve_decides (options : Options) (size : Nat) (clauses : List Clause) (budget : Budget) :
    match (solve options size clauses budget).outcome with
    | .satisfiable model =>
        model.length = max size (variableBound clauses) ∧
          (Assignment.ofValues model).satisfies clauses
    | .unsatisfiable _ => ¬∃ a : Assignment, a.satisfies clauses
    | .unknown reason =>
        ∃ n, (∀ i < n, (budget.spent i).spend.1 = none) ∧
          (budget.spent n).spend = (some reason, (solve options size clauses budget).budget) := by
  obtain ⟨k, hmoves, hvalid, hends, _, hcharged⟩ := solve_ends options size clauses budget
  generalize (solve options size clauses budget).outcome = outcome at hends hcharged
  cases hends with
  | satisfied _ hall =>
      constructor
      · rw [Trail.length_model, hmoves.size_eq]
        exact Array.size_replicate
      · intro c hc
        obtain ⟨position, hat⟩ := List.getElem?_of_mem hc
        exact Trail.holds_model (hall (c, position) (List.mk_mem_zipIdx_iff_getElem?.mpr hat))
  | refuted hfailed hsplits =>
      rintro ⟨a, ha⟩
      have hrefuted := hvalid.refuted hfailed
      rw [hsplits] at hrefuted
      exact hrefuted a (fun c hc _ => ha c.1 (List.fst_mem_of_mem_zipIdx hc))
        (List.forall_mem_nil _)
  | stopped _ => exact hcharged

end Elenchus.Search
