import Elenchus.Proofs.Contradiction.Search

/-!
# A larger budget only extends what is found

Of two searches for contradictions under budgets that differ in their limits only, the one with the
higher limit, or with more cores allowed, finds all that the other finds, in the same order, and
goes on from there (`findContradictions_extends`).

All searches that a search for contradictions is made of are charged to one budget.  Each of them
goes the same way under both limits until it ends or the lower limit is reached (`run_repeats`,
`seed_repeats`, `shrink_repeats`, `minimalCore_repeats`), and when it ends, what is left of the two
budgets differs in the limit only, so the next one goes the same way too.  The loop over the cores
keeps what it has found, whatever comes after (`Rounds.cores_prefix`, `Rounds.unsat`); so it does
not matter where the lower limit is reached.
-/

namespace Elenchus

open Budget

/-! ## One search -/

section
variable {budget more : Budget}

theorem Search.run_repeats {options : Options} {clauses : List (Clause × Nat)}
    (splits : List Split) (s : State) (h : budget.AtMost more) :
    let first := run options clauses splits s budget
    let second := run options clauses splits s more
    Repeats (.unknown .stepLimit) first.outcome first.budget second.outcome second.budget := by
  induction splits, s, budget using run.induct options clauses generalizing more with
  | case1 splits s budget reason after hspend =>
      have hrepeats := h.spend
      rw [hspend] at hrepeats
      rw [run_eq_of_refused hspend]
      obtain hstopped | ⟨hrefused, hafter⟩ := hrepeats
      · cases hstopped
        exact .inl rfl
      · have hmore : more.spend = (some reason, more.spend.2) := Prod.ext hrefused rfl
        rw [run_eq_of_refused hmore]
        exact .inr ⟨rfl, hafter⟩
  | case2 splits s budget after hspend _ s' hstep =>
      obtain ⟨left, hmore, hafter⟩ := h.spend.exists_eq hspend (Option.some_ne_none _).symm
      rw [run_eq_of_granted hspend, run_eq_of_granted hmore, hstep]
      exact .inr ⟨rfl, hafter⟩
  | case3 splits s budget after hspend _ s' hstep =>
      obtain ⟨left, hmore, hafter⟩ := h.spend.exists_eq hspend (Option.some_ne_none _).symm
      rw [run_eq_of_granted hspend, run_eq_of_granted hmore, hstep]
      exact .inr ⟨rfl, hafter⟩
  | case4 splits s budget after hspend _ splits' s' hstep ih =>
      obtain ⟨left, hmore, hafter⟩ := h.spend.exists_eq hspend (Option.some_ne_none _).symm
      rw [run_eq_of_granted hspend, run_eq_of_granted hmore, hstep]
      exact ih hafter

/-- The answers of two searches over the same propositions, of which the second repeats the first.
-/
structure MemberResult.Repeated (found again : MemberResult) : Prop where
  positions : again.positions = found.positions
  answer : Repeats (.unknown .stepLimit) found.outcome found.budget again.outcome again.budget

/-- An answer that is not the reaching of the step limit is given again. -/
theorem MemberResult.Repeated.outcome_eq {found again : MemberResult} (h : found.Repeated again)
    {outcome : Search.Outcome} (houtcome : found.outcome = outcome)
    (hne : outcome ≠ .unknown .stepLimit) :
    again.outcome = outcome ∧ found.budget.AtMost again.budget := by
  subst houtcome
  exact h.answer.resolve_left hne

namespace Encoding

variable {e : Encoding}

theorem solveMembers_repeated (e : Encoding) (members : List Nat) (h : budget.AtMost more) :
    (e.solveMembers members budget).Repeated (e.solveMembers members more) :=
  ⟨rfl, Search.run_repeats _ _ h⟩

/-! ## One core -/

theorem seed_repeats (e : Encoding) (members refutation positions : List Nat)
    (h : budget.AtMost more) :
    let first := e.seed members refutation positions budget
    let second := e.seed members refutation positions more
    Repeats (.error .stepLimit) first.1 first.2 second.1 second.2 := by
  unfold seed
  dsimp only
  split
  next => exact .inr ⟨rfl, h⟩
  next =>
    obtain hstopped | ⟨hsame, hleft⟩ :=
      (e.solveMembers_repeated (e.refuted refutation positions) h).answer
    · rw [hstopped]
      exact .inl rfl
    · rw [hsame]
      split
      next => exact .inr ⟨rfl, hleft⟩
      next => exact .inr ⟨rfl, hleft⟩
      next => exact .inr ⟨rfl, hleft⟩

theorem shrink_repeats (e : Encoding) (candidate tested : List Nat) (h : budget.AtMost more) :
    let first := e.shrink candidate budget tested
    let second := e.shrink candidate more tested
    Repeats (.error .stepLimit) first.1 first.2 second.1 second.2 := by
  induction tested generalizing candidate budget more with
  | nil => exact .inr ⟨rfl, h⟩
  | cons member others ih =>
      unfold shrink
      rw [h.check]
      cases budget.check with
      | some reason => exact .inr ⟨rfl, h.looked⟩
      | none =>
          dsimp only
          split
          next =>
            obtain hstopped | ⟨hsame, hleft⟩ :=
              (e.solveMembers_repeated (candidate.filter (· ≠ member)) h.looked).answer
            · rw [hstopped]
              exact .inl rfl
            · rw [hsame]
              split
              next => exact ih _ hleft
              next => exact ih _ hleft
              next => exact .inr ⟨rfl, hleft⟩
          next => exact ih _ h.looked

theorem minimalCore_repeats (e : Encoding) (members refutation positions : List Nat)
    (h : budget.AtMost more) :
    let first := e.minimalCore members refutation positions budget
    let second := e.minimalCore members refutation positions more
    Repeats (.error .stepLimit) first.1 first.2 second.1 second.2 := by
  have hseed := e.seed_repeats members refutation positions h
  unfold minimalCore
  generalize e.seed members refutation positions budget = first at *
  generalize e.seed members refutation positions more = second at *
  obtain ⟨start, left⟩ := first
  obtain ⟨start', left'⟩ := second
  obtain hstopped | ⟨hsame, hleft⟩ := hseed
  · cases hstopped
    exact .inl rfl
  · cases hsame
    cases start with
    | error reason => exact .inr ⟨rfl, hleft⟩
    | ok start => exact e.shrink_repeats _ _ hleft

/-- A core that is found after the first search is found after the second. -/
theorem exists_minimalCore_eq {found again : MemberResult} {active refutation core : List Nat}
    {left : Budget} (hpositions : again.positions = found.positions)
    (h : found.budget.AtMost again.budget)
    (hcore : e.minimalCore active refutation found.positions found.budget = (.ok core, left)) :
    ∃ left', e.minimalCore active refutation again.positions again.budget = (.ok core, left') ∧
      left.AtMost left' := by
  rw [hpositions]
  exact (e.minimalCore_repeats active refutation found.positions h).exists_eq hcore nofun

end Encoding

end

namespace Encoding

variable {e : Encoding} {limit : Nat} {active : List Nat} {found : MemberResult}
  {search : ContradictionSearch} {answer answer' : ContradictionSearch × Budget}

/-! ## The loop over the cores -/

/-- The loop keeps the cores that were found before. -/
theorem Rounds.cores_prefix (h : e.Rounds limit active found search answer) :
    search.cores <+: answer.1.cores := by
  induction h with
  | satisfiable => exact List.prefix_rfl
  | stopped => exact List.prefix_rfl
  | full => exact List.prefix_rfl
  | interrupted => exact List.prefix_rfl
  | last => exact List.prefix_append _ _
  | more _ _ _ _ ih => exact (List.prefix_append _ _).trans ih

/-- A core that was found before, or an unsatisfiable rest, settles the answer. -/
theorem Rounds.unsat (h : e.Rounds limit active found search answer)
    (hsettled : search.cores ≠ [] ∧ search.satisfiability = .unsat ∨
      ∃ refutation, found.outcome = .unsatisfiable refutation) :
    answer.1.satisfiability = .unsat := by
  induction h with
  | satisfiable houtcome =>
      obtain ⟨_, hunsat⟩ | ⟨refutation, hrefuted⟩ := hsettled
      · exact hunsat
      · cases houtcome.symm.trans hrefuted
  | stopped houtcome =>
      obtain ⟨hne, hunsat⟩ | ⟨refutation, hrefuted⟩ := hsettled
      · exact (if_neg hne).trans hunsat
      · cases houtcome.symm.trans hrefuted
  | full => rfl
  | interrupted => rfl
  | last => rfl
  | more _ _ _ _ ih =>
      exact ih (.inl ⟨List.append_ne_nil_of_right_ne_nil _ (List.cons_ne_nil _ _), rfl⟩)

/-- What a second search for contradictions has over a first one.  Where both may take as many
cores (`same`), there is no difference but what the step limit makes. -/
structure Extends (same : Prop) (answer answer' : ContradictionSearch × Budget) : Prop where
  cores : answer.1.cores <+: answer'.1.cores
  satisfiability : answer.1.satisfiability ≠ .unknown →
    answer'.1.satisfiability = answer.1.satisfiability
  finished : answer.1.exhausted = none → same → answer'.1 = answer.1 ∧ answer.2.AtMost answer'.2

/-- Of a search that was stopped it is enough that the second one finds what it found. -/
theorem Extends.of_stopped {same : Prop} {reason : Exhaustion}
    (hstopped : answer.1.exhausted = some reason) (hcores : answer.1.cores <+: answer'.1.cores)
    (hanswer : answer.1.satisfiability ≠ .unknown →
      answer'.1.satisfiability = answer.1.satisfiability) : Extends same answer answer' := by
  refine ⟨hcores, hanswer, fun hnone => ?_⟩
  cases hstopped.symm.trans hnone

/-- The loop goes the same way with a higher limit, and where the first one ends the second one can
only go on. -/
theorem takeCores_extends {limit' : Nat} (hlimits : limit ≤ limit')
    (hsearch : search.cores ≠ [] → search.satisfiability = .unsat) :
    ∀ again, found.Repeated again →
      Extends (limit = limit') (e.takeCores limit active found search)
        (e.takeCores limit' active again search) := by
  induction active, found, search using takeCores.induct e limit with
  | case1 active found search model houtcome =>
      intro again hfound
      obtain ⟨hsame, hleft⟩ := hfound.outcome_eq houtcome Search.Outcome.noConfusion
      rw [takeCores_satisfiable houtcome, takeCores_satisfiable hsame]
      exact ⟨List.prefix_rfl, fun _ => rfl, fun _ _ => ⟨rfl, hleft⟩⟩
  | case2 active found search reason houtcome =>
      intro again hfound
      have hsecond := e.rounds_takeCores limit' active again search
      rw [takeCores_unknown houtcome]
      obtain hstopped | ⟨hsame, hleft⟩ := hfound.answer
      · refine .of_stopped rfl hsecond.cores_prefix fun hknown => ?_
        have hne : search.cores ≠ [] := fun hnil => hknown (if_pos hnil)
        rw [hsecond.unsat (.inl ⟨hne, hsearch hne⟩)]
        exact ((if_neg hne).trans (hsearch hne)).symm
      · rw [takeCores_unknown (hsame.trans houtcome)]
        exact .of_stopped rfl List.prefix_rfl fun _ => rfl
  | case3 active found search refutation houtcome hlimit =>
      intro again hfound
      obtain ⟨hsame, hleft⟩ := hfound.outcome_eq houtcome Search.Outcome.noConfusion
      have hsecond := e.rounds_takeCores limit' active again search
      rw [takeCores_full houtcome hlimit]
      refine ⟨hsecond.cores_prefix, fun _ => hsecond.unsat (.inr ⟨_, hsame⟩), ?_⟩
      rintro _ rfl
      rw [takeCores_full hsame hlimit]
      exact ⟨rfl, hleft⟩
  | case4 active found search refutation houtcome hlimit reason left hcore =>
      intro again hfound
      obtain ⟨hsame, hleft⟩ := hfound.outcome_eq houtcome Search.Outcome.noConfusion
      have hsecond := e.rounds_takeCores limit' active again search
      rw [takeCores_interrupted houtcome hlimit hcore]
      exact .of_stopped rfl hsecond.cores_prefix fun _ => hsecond.unsat (.inr ⟨_, hsame⟩)
  | case5 active found search refutation houtcome hlimit core left hcore hlast =>
      intro again hfound
      obtain ⟨hsame, hleft⟩ := hfound.outcome_eq houtcome Search.Outcome.noConfusion
      obtain ⟨left', hcore', hleft'⟩ := exists_minimalCore_eq hfound.positions hleft hcore
      have hlimit' : ¬limit' ≤ search.cores.length := by omega
      rw [takeCores_last houtcome hlimit hcore hlast]
      by_cases hlast' : limit' ≤ search.cores.length + 1
      · rw [takeCores_last hsame hlimit' hcore' hlast']
        exact ⟨List.prefix_rfl, fun _ => rfl, fun _ _ => ⟨rfl, hleft'⟩⟩
      · rw [takeCores_more hsame hlimit' hcore' hlast']
        have hsecond := e.rounds_takeCores limit' (active.filter (· ∉ core))
          (e.solveMembers (active.filter (· ∉ core)) left')
          { search with satisfiability := .unsat, cores := search.cores ++ [core] }
        refine ⟨hsecond.cores_prefix, fun _ => hsecond.unsat (.inl ⟨?_, rfl⟩), ?_⟩
        · exact List.append_ne_nil_of_right_ne_nil _ (List.cons_ne_nil _ _)
        · rintro _ rfl
          exact absurd hlast hlast'
  | case6 active found search refutation houtcome hlimit core left hcore rest hlast ih =>
      intro again hfound
      obtain ⟨hsame, hleft⟩ := hfound.outcome_eq houtcome Search.Outcome.noConfusion
      obtain ⟨left', hcore', hleft'⟩ := exists_minimalCore_eq hfound.positions hleft hcore
      have hlimit' : ¬limit' ≤ search.cores.length := by omega
      have hlast' : ¬limit' ≤ search.cores.length + 1 := by omega
      rw [takeCores_more houtcome hlimit hcore hlast,
        takeCores_more hsame hlimit' hcore' hlast']
      rw [show rest = active.filter (· ∉ core) from unattach_filter_attach active core] at ih
      exact ih (fun _ => rfl) _ (e.solveMembers_repeated _ hleft')

/-- A higher limit and more cores only extend what is found. -/
theorem extends_findContradictions (e : Encoding) {budget more : Budget} {limit limit' : Nat}
    (hbudget : budget.AtMost more) (hlimits : limit ≤ limit') :
    Extends (limit = limit') (e.findContradictions budget limit)
      (e.findContradictions more limit') :=
  takeCores_extends hlimits (fun hne => absurd rfl hne) _ (e.solveMembers_repeated _ hbudget)

/-- With a larger budget of steps, or with more cores allowed, a search for contradictions finds the
same cores first and comes to the same answer, if the smaller budget allowed one.  A search that was
not stopped takes as many steps under any larger budget and finds the same. -/
theorem findContradictions_extends (e : Encoding) {steps steps' limit limit' : Nat}
    (hsteps : steps ≤ steps') (hlimits : limit ≤ limit') :
    let first := e.findContradictions { limit := steps } limit
    let second := e.findContradictions { limit := steps' } limit'
    first.1.cores <+: second.1.cores ∧
    (first.1.satisfiability ≠ .unknown →
      second.1.satisfiability = first.1.satisfiability) ∧
    (first.1.exhausted = none → limit = limit' →
      second.1 = first.1 ∧ second.2.used = first.2.used) := by
  intro first second
  have hbudget : ({ limit := steps } : Budget).AtMost { limit := steps' } :=
    ⟨hsteps, rfl, rfl, rfl⟩
  obtain ⟨hcores, hanswer, hfinished⟩ := e.extends_findContradictions hbudget hlimits
  refine ⟨hcores, hanswer, fun hrunning hsame => ?_⟩
  obtain ⟨hfound, hleft⟩ := hfinished hrunning hsame
  exact ⟨hfound, hleft.used⟩

/-- Five steps are enough for the quarrel's only core, and six to see that there is no other. -/
theorem findContradictions_extends_quarrel :
    let e := quarrel.encode {}
    let found (steps limit : Nat) := e.findContradictions { limit := steps } limit
    (found 5 8).1 = ⟨.unsat, [[1, 3]], some .stepLimit⟩ ∧ [[1, 3]] <+: (found 90 9).1.cores ∧
      (found 90 9).1.satisfiability = .unsat ∧ (found 90 8).1 = (found 6 8).1 ∧
      (found 90 8).2.used = 6 := by
  intro e found
  have hfive : (found 5 8).1 = ⟨.unsat, [[1, 3]], some .stepLimit⟩ := by decide +kernel
  have hsix : (found 6 8).1.exhausted = none ∧ (found 6 8).2.used = 6 := by decide +kernel
  obtain ⟨hcores, hanswer, _⟩ :=
    e.findContradictions_extends (by decide : 5 ≤ 90) (by decide : 8 ≤ 9)
  obtain ⟨_, _, hfinished⟩ :=
    e.findContradictions_extends (by decide : 6 ≤ 90) (Nat.le_refl 8)
  obtain ⟨hsame, hused⟩ := hfinished hsix.1 rfl
  change (found 5 8).1.cores <+: _ at hcores
  change (found 5 8).1.satisfiability ≠ _ → _ = (found 5 8).1.satisfiability at hanswer
  rw [hfive] at hcores hanswer
  exact ⟨hfive, hcores, hanswer Satisfiability.noConfusion, hsame, hused.trans hsix.2⟩

end Encoding

end Elenchus
