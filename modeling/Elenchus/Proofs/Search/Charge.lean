import Elenchus.Proofs.Search.Bound
import Elenchus.Proofs.Search.Log

/-!
# What a search is charged

A search is charged one step for every case it opens, and one for the node it starts at
(`charged_solve`).  The cases are counted in the log, which holds one decision for each of them:
propagation and pure literals write down none, and neither does going back (`opened_step`).

That a node opens a case only if one is left bounds the count, by what `Bound.lean` says of the
cases left.
-/

namespace Elenchus.Search

def Event.isDecision : Event → Bool
  | .decision .. => true
  | _ => false

/-- The cases that have been opened, by a log. -/
def decisions (events : List Event) : Nat := events.countP Event.isDecision

theorem decisions_cons (event : Event) (events : List Event) :
    decisions (event :: events) = decisions events + if event.isDecision then 1 else 0 :=
  List.countP_cons

theorem decisions_reverse (events : List Event) : decisions events.reverse = decisions events :=
  List.countP_reverse

/-- What a node has opened: one case if the search goes on in it, and none if the search ends
there. -/
def Node.Opened (before : Nat) : Node → Prop
  | .satisfied s => decisions s.events = before
  | .refuted s => decisions s.events = before
  | .next _ s => decisions s.events = before + 1

/-! ## One node -/

section
variable {options : Options} (hlogged : options.logged = true)
include hlogged

theorem decisions_scan (rest : List (Clause × Nat)) (s : State) :
    decisions (scan options rest s).1.events = decisions s.events := by
  induction rest generalizing s with
  | nil => rfl
  | cons c rest ih =>
      unfold scan
      cases s.trail.status c.1 with
      | satisfied => exact ih s
      | undecided => exact ih s
      | unit l =>
          dsimp only
          rw [ih, State.events_force hlogged]
          rfl
      | falsified =>
          dsimp only
          rw [State.events_fail hlogged]
          rfl

theorem decisions_propagate (clauses : List (Clause × Nat)) (s : State) :
    decisions (propagate options clauses s).1.events = decisions s.events := by
  induction s using propagate.induct options clauses with
  | case1 s after h =>
      rw [propagate, h, ← decisions_scan hlogged clauses s, h]
  | case2 s after h hless ih =>
      rw [propagate, h]
      simp only [if_pos hless]
      rw [ih, ← decisions_scan hlogged clauses s, h]
  | case3 s after h hless =>
      rw [propagate, h]
      simp only [if_neg hless]
      rw [← decisions_scan hlogged clauses s, h]

theorem decisions_assignPure (clauses : List (Clause × Nat)) (level : Nat) (s : State) :
    decisions (assignPure options clauses level s).events = decisions s.events := by
  have hfold : ∀ (ls : List Literal) (s : State),
      decisions (ls.foldl (State.assignPure options level) s).events = decisions s.events := by
    intro ls
    induction ls with
    | nil => exact fun _ => rfl
    | cons l ls ih =>
        intro s
        rw [List.foldl_cons, ih, State.events_assignPure hlogged]
        rfl
  exact hfold _ s

theorem decisions_back (s : State) (split : Split) (level : Nat) :
    decisions (s.back options split level).events = decisions s.events := by
  rw [State.events_back hlogged]
  rfl

theorem decisions_decide (s : State) (l : Literal) (level : Nat) :
    decisions (s.decide options l level).events = decisions s.events + 1 := by
  rw [State.events_decide hlogged, decisions_cons]
  rfl

theorem opened_reopen (splits : List Split) (s : State) :
    (reopen options splits s).Opened (decisions s.events) := by
  induction splits generalizing s with
  | nil => exact rfl
  | cons split outer ih =>
      have hback := decisions_back hlogged s split outer.length
      unfold reopen
      split
      next =>
        have hexhausted : decisions ((s.back options split outer.length).log options
            (.exhausted split.literal.var outer.length)).events = decisions s.events := by
          rw [State.events_log hlogged, ← hback]
          rfl
        rw [← hexhausted]
        exact ih _
      next =>
        show decisions ((s.back options split outer.length).decide options _ _).events = _
        rw [decisions_decide hlogged, hback]

theorem opened_step (clauses : List (Clause × Nat)) (splits : List Split) (s : State) :
    (step options clauses splits s).Opened (decisions s.events) := by
  have hpropagate := decisions_propagate hlogged clauses s
  unfold step
  generalize propagate options clauses s = answer at hpropagate
  obtain ⟨after, ok⟩ := answer
  dsimp only at hpropagate
  rw [← hpropagate]
  cases ok with
  | false => exact opened_reopen hlogged splits after
  | true =>
      have hpure : decisions (if options.pureLiterals then
          assignPure options clauses splits.length after else after).events =
          decisions after.events := by
        split
        · exact decisions_assignPure hlogged clauses splits.length after
        · rfl
      dsimp only
      rw [← hpure]
      generalize (if options.pureLiterals then _ else after) = last
      split
      · exact rfl
      · exact decisions_decide hlogged last _ _

/-! ## A run -/

/-- A run is charged one step more than the cases it opens, and opens no more than were left. -/
theorem charged_run {clauses : List (Clause × Nat)} {splits : List Split} {s : State}
    {budget : Budget} (hvalid : Config.Valid clauses ⟨splits, s, false⟩) :
    (run options clauses splits s budget).budget.used + decisions s.events =
        budget.used + decisions (run options clauses splits s budget).trace + 1 ∧
      decisions (run options clauses splits s budget).trace ≤
        decisions s.events + Config.left ⟨splits, s, false⟩ := by
  induction splits, s, budget using run.induct options clauses with
  | case1 splits s budget reason after hspend =>
      have hused := Budget.used_of_spend hspend
      rw [run_eq_of_refused hspend]
      dsimp only
      rw [decisions_reverse]
      omega
  | case2 splits s budget after hspend _ s' hstep =>
      have hused := Budget.used_of_spend hspend
      have hopened := opened_step hlogged clauses splits s
      rw [hstep, Node.Opened] at hopened
      rw [run_eq_of_granted hspend, hstep]
      dsimp only
      rw [decisions_reverse]
      omega
  | case3 splits s budget after hspend _ s' hstep =>
      have hused := Budget.used_of_spend hspend
      have hopened := opened_step hlogged clauses splits s
      rw [hstep, Node.Opened] at hopened
      rw [run_eq_of_granted hspend, hstep]
      dsimp only
      rw [decisions_reverse]
      omega
  | case4 splits s budget after hspend _ splits' s' hstep ih =>
      have hused := Budget.used_of_spend hspend
      have hopened := opened_step hlogged clauses splits s
      have hless := left_step hvalid hstep
      have hreaches := reaches_step options splits hvalid.fits
      rw [hstep, Node.Opened] at hopened
      rw [hstep] at hreaches
      rw [run_eq_of_granted hspend, hstep]
      cases hreaches with
      | next hmoves =>
          obtain ⟨hcharged, hbound⟩ := ih (hmoves.valid hvalid)
          dsimp only
          omega

end

/-! ## A whole search -/

/-- Whatever a search answers, it is charged one step more than the decisions it logs, if it keeps a
log, and never more than `2 ^ (n + 1) - 1` steps for `n` variables.  So it does not give up if the
budget has as many steps left, no deadline, and nobody asks it to stop. -/
theorem charged_solve (options : Options) (size : Nat) (clauses : List Clause) (budget : Budget) :
    let n := max size (variableBound clauses)
    let opened :=
      decisions (solve { options with logged := true } size clauses budget).trace
    (solve options size clauses budget).budget.used = budget.used + (opened + 1) ∧
      opened + 1 ≤ 2 ^ (n + 1) - 1 ∧
      (budget.used + (2 ^ (n + 1) - 1) ≤ budget.limit → budget.expired = .fixed false →
        budget.cancelled = .fixed false →
        ∀ reason, (solve options size clauses budget).outcome ≠ .unknown reason) := by
  intro n opened
  have hsame : (solve options size clauses budget).budget =
      (solve { options with logged := true } size clauses budget).budget :=
    (solve_unlogged options size clauses budget).2.symm.trans
      (solve_unlogged { options with logged := true } size clauses budget).2
  have hrun : (solve { options with logged := true } size clauses budget).budget.used + 0 =
        budget.used + opened + 1 ∧ opened ≤ 0 + (Config.start size clauses).left :=
    charged_run rfl (valid_start size clauses)
  have hleft : (Config.start size clauses).left + 1 = 2 ^ (n + 1) - 1 := left_start size clauses
  refine ⟨?_, by omega, ?_⟩
  · rw [hsame]
    omega
  · intro hlimit hexpired hcancelled
    have hremaining : cost n + 0 ≤ budget.remaining := by
      rw [Budget.remaining, cost]
      omega
    exact (solve_affords ⟨Budget.unhindered_of_never hexpired hcancelled, hremaining⟩).1

/-- Four of the clauses refute both cases of their first variable; the limit is that of four
variables. -/
theorem charged_fiveClauses :
    decisions (solve { logged := true } 0 fiveClauses { limit := 31 }).trace = 2 ∧
      (solve {} 0 fiveClauses { limit := 31 }).budget.used = 3 ∧
      ∀ reason, (solve {} 0 fiveClauses { limit := 31 }).outcome ≠ .unknown reason := by
  have hopened : decisions (solve { logged := true } 0 fiveClauses { limit := 31 }).trace = 2 := by
    decide +kernel
  obtain ⟨hused, _, hdecided⟩ := charged_solve {} 0 fiveClauses { limit := 31 }
  refine ⟨hopened, ?_, hdecided (by decide +kernel) rfl rfl⟩
  rw [hused, hopened]

end Elenchus.Search
