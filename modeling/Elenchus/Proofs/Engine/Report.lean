import Mathlib.Data.List.Forall2
import Elenchus.Engine.Analysis
import Elenchus.Proofs.Contradiction.Search
import Elenchus.Proofs.Derivation.Construction

/-!
# Nothing is lost from a report in silence

A report is marked as degraded exactly when it warns of the request as a whole, and if it does not,
every core that was found is reported (`EngineConfig.analyzeWithin_spec`).

Whether the mark and the warnings agree is a property of both together (`Warned`) that each part of
an analysis has by itself and that two parts keep when they are joined.  One part could break it:
an error of a derivation that is no exhaustion sets the mark and gives no warning.  There is no such
error, because a core is inconsistent, so the search for a derivation finds no model
(`Encoding.construct_cases`), and what it logs is accepted by the checker.
-/

namespace Elenchus

open Search

/-! ## The logical half -/

namespace Encoding

/-- A contradiction reports a core: it names the propositions of the core, and its derivation is
constructed from them and accepted. -/
structure Reported (e : Encoding) (arg : Argument) (core : List Nat) (c : Contradiction) :
    Prop where
  names : c.core = arg.idsAt core
  constructed : ∃ budget, (Derivation.construct e arg core budget).1 = .ok c.derivation
  accepted : c.derivation.check = .ok ()

/-- From inconsistent propositions falsity is derived, unless the search is stopped. -/
theorem construct_cases (e : Encoding) (arg : Argument) {core : List Nat}
    (h : ¬e.Consistent core) (budget : Budget) :
    (∃ reason, (Derivation.construct e arg core budget).1 = .error (.exhausted reason)) ∨
      ∃ d, (Derivation.construct e arg core budget).1 = .ok d ∧ d.check = .ok () := by
  rw [Derivation.construct_eq]
  cases houtcome : (solve ⟨true, true⟩ e.table.size ((e.premises arg core).map (·.1))
      budget).outcome with
  | satisfiable model =>
      have hmodel := satisfies_of_solve houtcome
      rw [e.map_premises] at hmodel
      exact absurd ⟨_, hmodel⟩ h
  | unknown reason => exact .inl ⟨reason, rfl⟩
  | unsatisfiable refutation =>
      obtain ⟨later, hlog, hcheck, _⟩ := ofLog_of_unsatisfiable e.isPremise_premises houtcome
      rw [hlog]
      exact .inr ⟨_, rfl, hcheck⟩

theorem derive_cases (e : Encoding) (arg : Argument) {core : List Nat}
    (h : ¬e.Consistent core) (budget : Budget) :
    (∃ reason, (e.derive arg core budget).1 = .error (.exhausted reason)) ∨
      ∃ d, (e.derive arg core budget).1 = .ok d ∧
        (Derivation.construct e arg core budget).1 = .ok d ∧ d.check = .ok () := by
  unfold derive
  rcases e.construct_cases arg h budget with ⟨reason, herror⟩ | ⟨d, hd, hcheck⟩
  · have hpair : Derivation.construct e arg core budget =
        (.error (.exhausted reason), (Derivation.construct e arg core budget).2) :=
      Prod.ext herror rfl
    rw [hpair]
    exact .inl ⟨reason, rfl⟩
  · have hpair : Derivation.construct e arg core budget =
        (.ok d, (Derivation.construct e arg core budget).2) := Prod.ext hd rfl
    rw [hpair]
    dsimp only
    rw [hcheck]
    exact .inr ⟨d, rfl, rfl, hcheck⟩

/-- Inconsistent cores are reported, all of them unless the budget is exhausted. -/
theorem contradictionsOf_spec {e : Encoding} {arg : Argument} {cores : List (List Nat)}
    (h : ∀ core ∈ cores, ¬e.Consistent core) (number : Nat) (budget : Budget) :
    (∀ error ∈ (e.contradictionsOf arg number budget cores).2,
        ∃ reason, error = .exhausted reason) ∧
      ((e.contradictionsOf arg number budget cores).2 = [] →
        List.Forall₂ (e.Reported arg) cores (e.contradictionsOf arg number budget cores).1) := by
  induction cores generalizing number budget with
  | nil => exact ⟨List.forall_mem_nil _, fun _ => .nil⟩
  | cons core cores ih =>
      have hcases := e.derive_cases arg (h core List.mem_cons_self) budget
      have hrest : ∀ core ∈ cores, ¬e.Consistent core := fun core hcore =>
        h core (List.mem_cons_of_mem _ hcore)
      unfold contradictionsOf
      split
      next error left heq =>
        obtain ⟨hexhausted, hreported⟩ := ih hrest number left
        rw [heq] at hcases
        refine ⟨List.forall_mem_cons.mpr ⟨?_, hexhausted⟩,
          fun hnil => absurd hnil (List.cons_ne_nil _ _)⟩
        rcases hcases with ⟨reason, herror⟩ | ⟨d, hd, _⟩
        · cases herror
          exact ⟨reason, rfl⟩
        · cases hd
      next d left heq =>
        obtain ⟨hexhausted, hreported⟩ := ih hrest (number + 1) left
        rw [heq] at hcases
        refine ⟨hexhausted, fun hnil => .cons ?_ (hreported hnil)⟩
        rcases hcases with ⟨reason, herror⟩ | ⟨d, hd, hconstruct, hcheck⟩
        · cases herror
        · cases hd
          exact ⟨rfl, ⟨budget, hconstruct⟩, hcheck⟩

end Encoding

/-! ## Degraded and warned -/

/-- A mark of degradation is set exactly when some warning is about the request as a whole. -/
def Warned (degraded : Bool) (warnings : List Warning) : Prop :=
  degraded = true ↔ ∃ w ∈ warnings, ¬w.Local

theorem warned_of_local {warnings : List Warning} (h : ∀ w ∈ warnings, w.Local) :
    Warned false warnings := by
  simpa [Warned] using h

theorem Warned.append {degraded degraded' : Bool} {warnings warnings' : List Warning}
    (h : Warned degraded warnings) (h' : Warned degraded' warnings') :
    Warned (degraded || degraded') (warnings ++ warnings') := by
  unfold Warned at *
  rw [Bool.or_eq_true, h, h']
  simp only [List.mem_append, or_and_right, exists_or]

theorem Warning.not_local_engine (error : EngineError) : ¬(Warning.engine error).Local :=
  fun h => h rfl

theorem Warning.not_local_searchStopped (part : String) (reason : Exhaustion) :
    ¬(searchStopped part reason).Local := by
  cases reason <;> exact not_local_engine _

theorem Warning.not_local_structureStopped (part : String) (reason : Exhaustion) :
    ¬(structureStopped part reason).Local := by
  cases reason <;> exact not_local_engine _

/-- A bound that was reached is warned of. -/
theorem warned_reached {w : Warning} (h : ¬w.Local) (reached : Bool) :
    Warned reached (if reached then [w] else []) := by
  cases reached with
  | false => exact warned_of_local (List.forall_mem_nil _)
  | true => exact iff_of_true rfl ⟨w, List.mem_singleton_self w, h⟩

/-- What stopped a part of an analysis is warned of. -/
theorem warned_stopped {warn : Exhaustion → Warning} (h : ∀ reason, ¬(warn reason).Local)
    (stopped : Option Exhaustion) : Warned stopped.isSome (stopped.toList.map warn) := by
  cases stopped with
  | none => exact warned_of_local (List.forall_mem_nil _)
  | some reason => exact iff_of_true rfl ⟨_, List.mem_singleton_self _, h reason⟩

/-- Errors of exhaustion are warned of, one by one. -/
theorem warned_errors {errors : List DerivationError}
    (h : ∀ error ∈ errors, ∃ reason, error = .exhausted reason) :
    Warned (!errors.isEmpty) (errors.filterMap DerivationError.warning?) := by
  cases errors with
  | nil => exact warned_of_local (List.forall_mem_nil _)
  | cons error errors =>
      obtain ⟨reason, rfl⟩ := h error List.mem_cons_self
      exact iff_of_true rfl ⟨_, List.mem_cons_self, Warning.not_local_searchStopped _ _⟩

theorem Argument.failureWarnings_local (arg : Argument) (failures : List (Nat × FormulaError)) :
    ∀ w ∈ arg.failureWarnings failures, w.Local := by
  intro w hw
  obtain ⟨⟨position, error⟩, _, hsome⟩ := List.mem_filterMap.mp hw
  obtain ⟨p, _, heq⟩ := Option.bind_eq_some_iff.mp hsome
  cases heq
  exact WarningSubject.noConfusion

section
variable (arg : Argument) (config : EngineConfig) (budget : Budget)

/-- The cores of the search are inconsistent, so only the budget keeps one from being reported. -/
theorem Argument.contradictionsOf_cores (number : Nat) (left : Budget) :
    let e := arg.encode config.encoding
    let cores := (e.findContradictions budget config.search.maxContradictions).1.cores
    (∀ error ∈ (e.contradictionsOf arg number left cores).2,
        ∃ reason, error = .exhausted reason) ∧
      ((e.contradictionsOf arg number left cores).2 = [] →
        List.Forall₂ (e.Reported arg) cores (e.contradictionsOf arg number left cores).1) := by
  intro e cores
  have hpacking := ((arg.wellTagged_encode config.encoding).exact budget
    config.search.maxContradictions).packing
  exact Encoding.contradictionsOf_spec
    (fun core hcore => (hpacking.isCore core hcore).inconsistent) number left

theorem Argument.warned_analyzeLogic :
    Warned (arg.analyzeLogic config budget).degraded
      (arg.analyzeLogic config budget).warnings := by
  let e := arg.encode config.encoding
  have hfailures := warned_of_local (arg.failureWarnings_local e.failures)
  have hstopped := warned_stopped (Warning.not_local_searchStopped "contradiction search")
    (e.findContradictions budget config.search.maxContradictions).1.exhausted
  have herrors := warned_errors (arg.contradictionsOf_cores config budget 1
    (e.findContradictions budget config.search.maxContradictions).2).1
  exact (hfailures.append hstopped).append herrors

/-- A logical half that leaves the answer open is degraded. -/
theorem Argument.degraded_of_unknown
    (h : (arg.analyzeLogic config budget).satisfiability = .unknown) :
    (arg.analyzeLogic config budget).degraded = true := by
  have hstopped := (arg.wellTagged_encode config.encoding).exhausted_of_unknown h
  exact Bool.or_eq_true_iff.mpr (.inl (Option.isSome_iff_ne_none.mpr hstopped))

/-- A logical half that is not degraded reports all cores. -/
theorem Argument.reported_of_not_degraded
    (h : (arg.analyzeLogic config budget).degraded = false) :
    let e := arg.encode config.encoding
    List.Forall₂ (e.Reported arg)
      (e.findContradictions budget config.search.maxContradictions).1.cores
      (arg.analyzeLogic config budget).contradictions := by
  intro e
  have herrors := (Bool.or_eq_false_iff.mp h).2
  rw [Bool.not_eq_false', List.isEmpty_iff] at herrors
  exact (arg.contradictionsOf_cores config budget 1 _).2 herrors

end

/-! ## The structural half -/

theorem CycleSearch.warned (s : CycleSearch) (maxCycles : Nat) :
    Warned (s.truncated || s.exhausted.isSome) (s.warnings maxCycles) :=
  (warned_reached (Warning.not_local_engine _) s.truncated).append
    (warned_stopped (Warning.not_local_structureStopped "cycle enumeration") s.exhausted)

theorem ArgumentGraph.warned_analyze (g : ArgumentGraph) (options : StructureOptions)
    (budget : Budget) :
    Warned (g.analyze options budget).degraded (g.analyze options budget).warnings :=
  (CycleSearch.warned _ _).append
    (warned_stopped (Warning.not_local_structureStopped "centrality analysis") _)

/-! ## Reports -/

/-- An argument without propositions has no cores. -/
theorem Encoding.Packing.eq_nil {e : Encoding} {limit : Nat} {cores : List (List Nat)}
    (h : e.Packing limit cores) (hempty : e.members = []) : cores = [] := by
  refine List.eq_nil_iff_forall_not_mem.mpr fun core hcore => ?_
  have hcore := h.isCore core hcore
  rw [hempty] at hcore
  exact hcore.nonempty (List.subset_nil.mp hcore.subset)

/-- A report is degraded exactly when it warns of the request as a whole, and only then may it leave
open whether the argument can be true.  Otherwise each core that was found is reported, with a
derivation that is accepted.  No derivation fails but for its budget. -/
theorem EngineConfig.analyzeWithin_spec (c : EngineConfig) (logicBudget graphBudget : Budget)
    (arg : Argument) (warnings : List Warning)
    (hwarnings : ∀ w ∈ warnings, ∃ r : Request, w ∈ r.validate.2) :
    let report := c.analyzeWithin logicBudget graphBudget arg warnings
    let e := arg.encode c.encoding
    let found := e.findContradictions logicBudget c.search.maxContradictions
    (report.degraded = true ↔ ∃ w ∈ report.warnings, w.subject = .request) ∧
    (report.satisfiability = .unknown → report.degraded = true) ∧
    ((∀ w ∈ report.warnings, w.subject ≠ .request) →
      List.Forall₂ (e.Reported arg) found.1.cores report.contradictions) ∧
    ∀ error ∈ (e.contradictionsOf arg 1 found.2 found.1.cores).2,
      ∃ reason, error = .exhausted reason := by
  intro report e found
  have hlocal : ∀ w ∈ warnings, w.Local := by
    intro w hw
    obtain ⟨r, hr⟩ := hwarnings w hw
    exact r.validate_local w hr
  have herrors := (arg.contradictionsOf_cores c logicBudget 1 found.2).1
  have hwarned : ∀ {degraded : Bool} {warnings : List Warning}, Warned degraded warnings →
      (degraded = true ↔ ∃ w ∈ warnings, w.subject = .request) := by
    intro degraded warnings h
    simpa [Warned, Warning.Local] using h
  by_cases hempty : arg.size = 0
  · have hreport : report = .empty warnings := if_pos hempty
    have hmembers : e.members = [] := congrArg List.range hempty
    have hcores : found.1.cores = [] :=
      ((arg.wellTagged_encode c.encoding).exact _ _).packing.eq_nil hmembers
    rw [hreport]
    refine ⟨hwarned (warned_of_local hlocal), fun h => ?_, fun _ => ?_, herrors⟩
    · cases h
    · rw [hcores]
      exact .nil
  · have hreport : report = _ := if_neg hempty
    have hlogic := arg.warned_analyzeLogic c logicBudget
    have hstructure := arg.graph.warned_analyze c.graph graphBudget
    have hall : Warned report.degraded report.warnings := by
      rw [hreport]
      exact ((warned_of_local hlocal).append hlogic).append hstructure
    refine ⟨hwarned hall, fun h => ?_, fun h => ?_, herrors⟩
    · rw [hreport] at h ⊢
      exact Bool.or_eq_true_iff.mpr (.inl (arg.degraded_of_unknown c logicBudget h))
    · have hsound : report.degraded = false := by
        rw [Bool.eq_false_iff, ne_eq, hwarned hall]
        rintro ⟨w, hw, hsubject⟩
        exact h w hw hsubject
      rw [hreport] at hsound ⊢
      exact arg.reported_of_not_degraded c logicBudget (Bool.or_eq_false_iff.mp hsound).1

/-- A record without an identifier is warned of, and the report on four other statements is none the
worse for it. -/
theorem EngineConfig.analyzeWithin_quarrel :
    let warnings := (Request.validate ⟨[{}], []⟩).2
    let report := analyzeWithin {} .unlimited .unlimited Encoding.quarrel warnings
    warnings.length = 1 ∧ report.degraded = false ∧ report.satisfiability ≠ .unknown ∧
      List.Forall₂ ((Encoding.quarrel.encode {}).Reported Encoding.quarrel) [[1, 3]]
        report.contradictions := by
  intro warnings report
  have hcores : ((Encoding.quarrel.encode {}).findContradictions .unlimited 8).1.cores = [[1, 3]] :=
    by decide +kernel
  have hquiet : ∀ w ∈ report.warnings, w.subject ≠ .request := by decide +kernel
  obtain ⟨hdegraded, hunknown, hreported, _⟩ :=
    analyzeWithin_spec {} .unlimited .unlimited Encoding.quarrel warnings fun w hw => ⟨_, hw⟩
  have hsound : report.degraded = false := by
    rw [Bool.eq_false_iff, ne_eq, hdegraded]
    rintro ⟨w, hw, hsubject⟩
    exact hquiet w hw hsubject
  refine ⟨by decide +kernel, hsound, fun h => ?_, ?_⟩
  · exact Bool.false_ne_true (hsound.symm.trans (hunknown h))
  · rw [← hcores]
    exact hreported hquiet

end Elenchus
