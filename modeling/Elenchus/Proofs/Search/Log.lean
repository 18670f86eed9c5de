import Elenchus.Proofs.Search.Decision

/-!
# The log and the clauses of a refutation

A log is only written: erasing it from every state turns the run that keeps one into the run that
keeps none (`solve_unlogged`).  So the log of the logged search speaks of both.

What it says of the clauses used is an invariant of the moves (`Cites`): a clause has been used
exactly when some event forces a literal by it or finds it falsified.  With the invariant of
`Refutation.lean` that settles what the positions of a refutation are (`refutation_of_solve`).
-/

namespace Elenchus.Search

/-! ## Erasing the log -/

/-- The same search without a log. -/
def Options.unlogged (options : Options) : Options := { options with logged := false }

/-- The same state without a log. -/
def State.unlogged (s : State) : State := { s with events := [] }

/-- The same node without a log. -/
def Node.unlogged : Node → Node
  | .satisfied s => .satisfied s.unlogged
  | .refuted s => .refuted s.unlogged
  | .next splits s => .next splits s.unlogged

section
variable (options : Options)

namespace State

@[simp] theorem unlogged_log (s : State) (event : Event) :
    (s.log options event).unlogged = s.unlogged := by
  unfold log
  split <;> rfl

@[simp] theorem log_unlogged (s : State) (event : Event) :
    s.log options.unlogged event = s := rfl

@[simp] theorem unlogged_involve (s : State) (position : Nat) :
    (s.involve position).unlogged = s.unlogged.involve position := by
  unfold involve
  by_cases h : position ∈ s.involved
  · rw [if_pos h, if_pos (show position ∈ s.unlogged.involved from h)]
  · rw [if_neg h, if_neg (show position ∉ s.unlogged.involved from h)]
    rfl

theorem unlogged_force (s : State) (l : Literal) (position : Nat) :
    (s.force options l position).unlogged = s.unlogged.force options.unlogged l position := by
  rw [force, force, unlogged_log, unlogged_involve, log_unlogged]
  rfl

theorem unlogged_fail (s : State) (position : Nat) :
    (s.fail options position).unlogged = s.unlogged.fail options.unlogged position := by
  rw [fail, fail, unlogged_log, unlogged_involve, log_unlogged]

theorem unlogged_decide (s : State) (l : Literal) (level : Nat) :
    (s.decide options l level).unlogged = s.unlogged.decide options.unlogged l level := by
  unfold decide log
  split <;> rfl

theorem unlogged_assignPure (s : State) (l : Literal) (level : Nat) :
    (s.assignPure options level l).unlogged = s.unlogged.assignPure options.unlogged level l := by
  rw [assignPure, assignPure, unlogged_log, log_unlogged]
  rfl

theorem unlogged_back (s : State) (split : Split) (level : Nat) :
    (s.back options split level).unlogged = s.unlogged.back options.unlogged split level := by
  rw [back, back, unlogged_log, log_unlogged]
  rfl

end State

theorem scan_unlogged (rest : List (Clause × Nat)) (s : State) :
    scan options.unlogged rest s.unlogged =
      ((scan options rest s).1.unlogged, (scan options rest s).2) := by
  induction rest generalizing s with
  | nil => rfl
  | cons c rest ih =>
      have hstatus : s.unlogged.trail.status c.1 = s.trail.status c.1 := rfl
      unfold scan
      rw [hstatus]
      cases s.trail.status c.1 with
      | satisfied => exact ih s
      | undecided => exact ih s
      | unit l =>
          dsimp only
          rw [← State.unlogged_force, ih]
      | falsified =>
          dsimp only
          rw [State.unlogged_fail]

theorem propagate_unlogged (clauses : List (Clause × Nat)) (s : State) :
    propagate options.unlogged clauses s.unlogged =
      ((propagate options clauses s).1.unlogged, (propagate options clauses s).2) := by
  have hscan := scan_unlogged options clauses
  induction s using propagate.induct options clauses with
  | case1 s after h =>
      rw [propagate, propagate, hscan, h]
  | case2 s after h hless ih =>
      rw [propagate, propagate, hscan, h]
      simp only [if_pos hless]
      rw [if_pos (show after.unlogged.trail.unvalued < s.unlogged.trail.unvalued from hless), ih]
  | case3 s after h hless =>
      rw [propagate, propagate, hscan, h]
      simp only [if_neg hless]
      rw [if_neg (show ¬after.unlogged.trail.unvalued < s.unlogged.trail.unvalued from hless)]

theorem assignPure_unlogged (clauses : List (Clause × Nat)) (level : Nat) (s : State) :
    assignPure options.unlogged clauses level s.unlogged =
      (assignPure options clauses level s).unlogged := by
  have hfold : ∀ (ls : List Literal) (s : State),
      ls.foldl (State.assignPure options.unlogged level) s.unlogged =
        (ls.foldl (State.assignPure options level) s).unlogged := by
    intro ls
    induction ls with
    | nil => exact fun _ => rfl
    | cons l ls ih =>
        intro s
        rw [List.foldl_cons, List.foldl_cons, ← State.unlogged_assignPure, ih]
  exact hfold _ s

theorem reopen_unlogged (splits : List Split) (s : State) :
    reopen options.unlogged splits s.unlogged = (reopen options splits s).unlogged := by
  induction splits generalizing s with
  | nil => rfl
  | cons split outer ih =>
      have hback := State.unlogged_back options s split outer.length
      unfold reopen
      by_cases hsecond : split.negated = true
      · simp only [if_pos hsecond]
        rw [← ih, State.unlogged_log]
        exact congrArg (reopen options.unlogged outer) hback.symm
      · simp only [if_neg hsecond, Node.unlogged]
        rw [State.unlogged_decide]
        exact congrArg (fun s : State => Node.next _ (s.decide options.unlogged _ _)) hback.symm

theorem step_unlogged (clauses : List (Clause × Nat)) (splits : List Split) (s : State) :
    step options.unlogged clauses splits s.unlogged = (step options clauses splits s).unlogged := by
  unfold step
  rw [propagate_unlogged]
  obtain ⟨after, ok⟩ := propagate options clauses s
  cases ok with
  | false => exact reopen_unlogged options splits after
  | true =>
      have hpure : (if options.unlogged.pureLiterals then
            assignPure options.unlogged clauses splits.length after.unlogged
          else after.unlogged) =
          (if options.pureLiterals then assignPure options clauses splits.length after
          else after).unlogged := by
        rw [assignPure_unlogged]
        show (if options.pureLiterals then _ else _) = _
        split <;> rfl
      dsimp only
      rw [hpure]
      generalize (if options.pureLiterals then _ else after) = s
      have hbranch : branch? (occurrences s.unlogged.trail.values.size
            (openLiterals clauses s.unlogged.trail)) =
          branch? (occurrences s.trail.values.size (openLiterals clauses s.trail)) := rfl
      rw [hbranch]
      cases branch? (occurrences s.trail.values.size (openLiterals clauses s.trail)) with
      | none => rfl
      | some l =>
          dsimp only [Node.unlogged]
          rw [State.unlogged_decide]
          rfl

theorem run_unlogged (clauses : List (Clause × Nat)) (splits : List Split) (s : State)
    (budget : Budget) :
    (run options.unlogged clauses splits s.unlogged budget).outcome =
        (run options clauses splits s budget).outcome ∧
      (run options.unlogged clauses splits s.unlogged budget).budget =
        (run options clauses splits s budget).budget := by
  have hnode := step_unlogged options clauses
  induction splits, s, budget using run.induct options clauses with
  | case1 splits s budget reason after hspend =>
      rw [run_eq_of_refused hspend, run_eq_of_refused hspend]
      exact ⟨rfl, rfl⟩
  | case2 splits s budget after hspend _ s' hstep =>
      rw [run_eq_of_granted hspend, run_eq_of_granted hspend, hnode, hstep]
      exact ⟨rfl, rfl⟩
  | case3 splits s budget after hspend _ s' hstep =>
      rw [run_eq_of_granted hspend, run_eq_of_granted hspend, hnode, hstep]
      exact ⟨rfl, rfl⟩
  | case4 splits s budget after hspend _ splits' s' hstep ih =>
      rw [run_eq_of_granted hspend, run_eq_of_granted hspend, hnode, hstep]
      exact ih

/-- A search answers the same, and leaves the same of its budget, with and without a log. -/
theorem solve_unlogged (size : Nat) (clauses : List Clause) (budget : Budget) :
    (solve options.unlogged size clauses budget).outcome =
        (solve options size clauses budget).outcome ∧
      (solve options.unlogged size clauses budget).budget =
        (solve options size clauses budget).budget :=
  run_unlogged options clauses.zipIdx [] ⟨.start (max size (variableBound clauses)), [], []⟩ budget

end

/-! ## What is written -/

section
variable {options : Options} (hlogged : options.logged = true) (s : State) (l : Literal)
  (position level : Nat)

namespace State

theorem events_involve : (s.involve position).events = s.events := by
  unfold involve
  split <;> rfl

include hlogged

theorem events_log (event : Event) : (s.log options event).events = event :: s.events := by
  rw [log, if_pos hlogged]

theorem events_force :
    (s.force options l position).events = .propagation l position :: s.events := by
  rw [force, events_log hlogged, events_involve]

theorem events_fail : (s.fail options position).events = .conflict position :: s.events := by
  rw [fail, events_log hlogged, events_involve]

theorem events_assignPure :
    (s.assignPure options level l).events = .pureLiteral l level :: s.events := by
  rw [assignPure, events_log hlogged]

theorem events_decide : (s.decide options l level).events = .decision l level :: s.events := by
  rw [decide]
  exact events_log hlogged s _

theorem events_back (split : Split) :
    (s.back options split level).events = .backtrack level :: s.events := by
  rw [back, events_log hlogged]

end State

end

/-- The clause that an event rests on. -/
def Event.clause? : Event → Option Nat
  | .propagation _ position => some position
  | .conflict position => some position
  | _ => none

/-- The clauses used are those that the events of the log rest on, and all are clauses given. -/
structure Cites (clauses : List (Clause × Nat)) (s : State) : Prop where
  involved : ∀ p, p ∈ s.involved ↔ ∃ event ∈ s.events, event.clause? = some p
  given : ∀ p ∈ s.involved, ∃ c ∈ clauses, c.2 = p

section
variable {options : Options} {clauses : List (Clause × Nat)}

theorem cites_start {t : Trail} : Cites clauses ⟨t, [], []⟩ := by
  refine ⟨fun p => ⟨fun h => absurd h List.not_mem_nil, ?_⟩, List.forall_mem_nil _⟩
  rintro ⟨_, hevent, _⟩
  exact absurd hevent List.not_mem_nil

/-- An event that rests on no clause. -/
theorem Cites.log {s s' : State} {event : Event} (h : Cites clauses s)
    (hinvolved : s'.involved = s.involved) (hevents : s'.events = event :: s.events)
    (hnone : event.clause? = none) : Cites clauses s' := by
  refine ⟨?_, fun p hp => h.given p (hinvolved ▸ hp)⟩
  intro p
  rw [hinvolved, hevents, h.involved]
  constructor
  · rintro ⟨e, he, hp⟩
    exact ⟨e, List.mem_cons_of_mem _ he, hp⟩
  · rintro ⟨e, he, hp⟩
    rcases List.mem_cons.mp he with rfl | he
    · rw [hnone] at hp
      cases hp
    · exact ⟨e, he, hp⟩

/-- An event that rests on a clause. -/
theorem Cites.use {s s' : State} {event : Event} {c : Clause × Nat} (h : Cites clauses s)
    (hc : c ∈ clauses) (hinvolved : ∀ p, p ∈ s'.involved ↔ p = c.2 ∨ p ∈ s.involved)
    (hevents : s'.events = event :: s.events) (hsome : event.clause? = some c.2) :
    Cites clauses s' := by
  constructor
  · intro p
    rw [hinvolved, hevents, h.involved]
    constructor
    · rintro (rfl | ⟨e, he, hp⟩)
      · exact ⟨event, List.mem_cons_self, hsome⟩
      · exact ⟨e, List.mem_cons_of_mem _ he, hp⟩
    · rintro ⟨e, he, hp⟩
      rcases List.mem_cons.mp he with rfl | he
      · exact Or.inl (Option.some.inj (hp.symm.trans hsome))
      · exact Or.inr ⟨e, he, hp⟩
  · intro p hp
    rcases (hinvolved p).mp hp with rfl | hp
    · exact ⟨c, hc, rfl⟩
    · exact h.given p hp

theorem Move.cites {k k' : Config} (hlogged : options.logged = true)
    (h : Move options clauses k k') (hk : Cites clauses k.state) : Cites clauses k'.state := by
  cases h with
  | @force _ s c l hc _ =>
      exact hk.use hc (fun _ => State.mem_involved_force options s l c.2)
        (State.events_force hlogged s l c.2) rfl
  | @fail _ s c hc _ =>
      exact hk.use hc (fun _ => State.mem_involved_fail options s c.2)
        (State.events_fail hlogged s c.2) rfl
  | @pure splits s l _ _ _ =>
      exact hk.log (State.involved_assignPure options s l splits.length)
        (State.events_assignPure hlogged s l splits.length) rfl
  | @decide splits s l _ _ =>
      exact hk.log (State.involved_decide options s l (splits.length + 1))
        (State.events_decide hlogged s l (splits.length + 1)) rfl
  | @retry split outer s _ =>
      exact (hk.log (State.involved_back options s outer.length split)
        (State.events_back hlogged s outer.length split) rfl).log
        (State.involved_decide options _ _ _) (State.events_decide hlogged _ _ _) rfl
  | @exhaust split outer s _ =>
      exact (hk.log (State.involved_back options s outer.length split)
        (State.events_back hlogged s outer.length split) rfl).log
        (State.involved_log options _ _) (State.events_log hlogged _ _) rfl

theorem Moves.cites {k k' : Config} (hlogged : options.logged = true)
    (h : Moves options clauses k k') (hk : Cites clauses k.state) : Cites clauses k'.state := by
  induction h with
  | refl => exact hk
  | tail _ hmove ih => exact hmove.cites hlogged ih

end

/-! ## The refutation -/

/-- The clauses at some positions of a list. -/
def clausesAt (clauses : List Clause) (positions : List Nat) : List Clause :=
  positions.filterMap fun p => clauses[p]?

/-- The positions that a failed search lists are ascending and in range, and the clauses there are
unsatisfiable by themselves.  A clause is listed exactly when it forces a literal or is found
falsified in the log; no other is. -/
theorem refutation_of_solve (options : Options) (size : Nat) (clauses : List Clause)
    (budget : Budget) (refutation : List Nat)
    (h : (solve options size clauses budget).outcome = .unsatisfiable refutation) :
    refutation.Pairwise (· < ·) ∧ (∀ p ∈ refutation, p < clauses.length) ∧
      (¬∃ a : Assignment, a.satisfies (clausesAt clauses refutation)) ∧
      ∀ p, p ∈ refutation ↔
        ∃ event ∈ (solve { options with logged := true } size clauses budget).trace,
          event.clause? = some p := by
  have hsame : (solve { options with logged := true } size clauses budget).outcome =
      (solve options size clauses budget).outcome :=
    (solve_unlogged { options with logged := true } size clauses budget).1.symm.trans
      (solve_unlogged options size clauses budget).1
  obtain ⟨k, hmoves, hvalid, hends, htrace, _⟩ :=
    solve_ends { options with logged := true } size clauses budget
  rw [hsame, h] at hends
  have hcites : Cites clauses.zipIdx k.state :=
    hmoves.cites rfl cites_start
  have hlt {p : Nat} {c : Clause} (hc : (c, p) ∈ clauses.zipIdx) : p < clauses.length :=
    (List.getElem?_eq_some_iff.mp (List.mk_mem_zipIdx_iff_getElem?.mp hc)).1
  cases hends with
  | refuted hfailed hsplits =>
      rw [List.length_zipIdx]
      have hmem (p : Nat) : p ∈ (List.range clauses.length).filter (· ∈ k.state.involved) ↔
          p ∈ k.state.involved := by
        rw [List.mem_filter, List.mem_range, decide_eq_true_eq]
        refine ⟨And.right, fun hp => ⟨?_, hp⟩⟩
        obtain ⟨c, hc, rfl⟩ := hcites.given p hp
        exact hlt hc
      refine ⟨List.pairwise_lt_range.filter _, ?_, ?_, ?_⟩
      · intro p hp
        exact List.mem_range.mp (List.mem_filter.mp hp).1
      · rintro ⟨a, ha⟩
        have hrefuted := hvalid.refuted hfailed
        rw [hsplits] at hrefuted
        refine hrefuted a (fun c hc hp => ha c.1 (List.mem_filterMap.mpr ⟨c.2, ?_, ?_⟩))
          (List.forall_mem_nil _)
        · exact (hmem c.2).mpr hp
        · exact List.mk_mem_zipIdx_iff_getElem?.mp hc
      · intro p
        rw [hmem, hcites.involved, htrace]
        simp only [List.mem_reverse]

/-- The four clauses on two variables, and one more on two others. -/
def fiveClauses : List Clause :=
  [.ofList [⟨0, true⟩, ⟨1, true⟩], .ofList [⟨2, true⟩, ⟨3, false⟩],
    .ofList [⟨0, true⟩, ⟨1, false⟩], .ofList [⟨0, false⟩, ⟨1, true⟩],
    .ofList [⟨0, false⟩, ⟨1, false⟩]]

theorem refutation_fiveClauses :
    (solve {} 0 fiveClauses .unlimited).outcome = .unsatisfiable [0, 2, 3, 4] ∧
      [0, 2, 3, 4].Pairwise (· < ·) ∧ (∀ p ∈ [0, 2, 3, 4], p < fiveClauses.length) ∧
      (¬∃ a : Assignment, a.satisfies (clausesAt fiveClauses [0, 2, 3, 4])) ∧
      ∀ p, p ∈ [0, 2, 3, 4] ↔
        ∃ event ∈ (solve { logged := true } 0 fiveClauses .unlimited).trace,
          event.clause? = some p :=
  ⟨by decide +kernel,
    refutation_of_solve {} 0 fiveClauses .unlimited [0, 2, 3, 4] (by decide +kernel)⟩

end Elenchus.Search
