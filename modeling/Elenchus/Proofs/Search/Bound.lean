import Mathlib.Algebra.Ring.Nat
import Mathlib.Data.List.Perm.Subperm
import Elenchus.Proofs.Budget
import Elenchus.Proofs.Search.Decision

/-!
# A search is finite

A search over `n` variables makes no more than `2 ^ (n + 1) - 1` steps, so a budget that affords as
many decides it (`solve_affords`).

Each step but the first opens a case.  A node with `n` open variables has `2 ^ (n + 1) - 2` cases
below it, and a split whose second case is left has that case and those below it.  What is left
altogether (`Config.left`) never grows by a move, and is one less for each case that is opened.
-/

namespace Elenchus.Search

/-- A trail has no more literals than there are variables. -/
theorem Trail.InStep.length_le {t : Trail} (h : t.InStep) : t.length ≤ t.values.size := by
  have hvars : t.literals.map Literal.var ⊆ List.range t.values.size := by
    intro v hv
    obtain ⟨⟨v, b⟩, hl, rfl⟩ := List.mem_map.mp hv
    exact List.mem_range.mpr (Trail.lt_size_of_value? ((h.1 v b).mpr hl))
  have hlength := (List.Nodup.subperm h.2 hvars).length_le
  simpa [Trail.length] using hlength

/-- The cases that a split has left, among as many variables as there are. -/
def Split.left (size : Nat) (split : Split) : Nat :=
  if split.negated then 0 else 2 ^ (size - split.mark) - 1

namespace Config

/-- The variables that are open. -/
def free (k : Config) : Nat := k.state.trail.values.size - k.state.trail.length

/-- The cases that can still be opened. -/
def left (k : Config) : Nat :=
  (if k.failed then 0 else 2 ^ (k.free + 1) - 2) +
    (k.splits.map (Split.left k.state.trail.values.size)).sum

end Config

section
variable {options : Options} {clauses : List (Clause × Nat)} {k k' : Config}

theorem two_pow_succ (n : Nat) : 2 ^ (n + 1) = 2 * 2 ^ n ∧ 1 ≤ 2 ^ n :=
  ⟨by rw [Nat.pow_succ, Nat.mul_comm], Nat.one_le_two_pow⟩

/-- Making a literal true leaves no more cases. -/
theorem left_assign {splits : List Split} {s s' : State} {l : Literal}
    (htrail : s'.trail = s.trail.assign l) :
    Config.left ⟨splits, s', false⟩ ≤ Config.left ⟨splits, s, false⟩ := by
  have hfree : Config.free ⟨splits, s', false⟩ ≤ Config.free ⟨splits, s, false⟩ := by
    simp only [Config.free, htrail, Trail.size_assign, Trail.length, Trail.literals_assign,
      List.length_cons]
    omega
  have hpow : 2 ^ (Config.free ⟨splits, s', false⟩ + 1) ≤
      2 ^ (Config.free ⟨splits, s, false⟩ + 1) :=
    Nat.pow_le_pow_right (by decide) (by omega)
  simp only [Config.left, Bool.false_eq_true, if_false, htrail, Trail.size_assign]
  omega

/-- The first case of a split is one of the cases that were left. -/
theorem left_decide {splits : List Split} {s : State} {l : Literal} (hs : Fits clauses s.trail)
    (hfree : s.trail.value? l.var = none) (hlt : l.var < s.trail.values.size) (level : Nat) :
    Config.left ⟨⟨l, s.trail.length, false⟩ :: splits, s.decide options l level, false⟩ <
      Config.left ⟨splits, s, false⟩ := by
  have hroom : s.trail.length + 1 ≤ s.trail.values.size := by
    simpa [Trail.length] using (hs.assign hfree hlt).inStep.length_le
  obtain ⟨n, hn⟩ := Nat.exists_eq_add_of_le hroom
  have hopen : s.trail.values.size - s.trail.length = n + 1 := by omega
  have hopen' : s.trail.values.size - (s.trail.length + 1) = n := by omega
  obtain ⟨hpow, hpos⟩ := two_pow_succ n
  have hpow' := (two_pow_succ (n + 1)).1
  simp only [Config.left, Config.free, Split.left, Bool.false_eq_true, if_false, List.map_cons,
    List.sum_cons, State.trail_decide, Trail.size_assign, Trail.length, Trail.literals_assign,
    List.length_cons] at *
  rw [hopen, hopen']
  omega

/-- The second case of a split is one of the cases that were left. -/
theorem left_retry {split : Split} {outer : List Split} {s : State} (hfirst : split.negated = false)
    (hk : Config.Valid clauses ⟨split :: outer, s, true⟩) (level : Nat) :
    Config.left ⟨{ split with negated := true } :: outer,
      (s.back options split outer.length).decide options split.literal.negate level, false⟩ <
      Config.left ⟨split :: outer, s, true⟩ := by
  obtain ⟨hfits, _, hmark, hfree, hlt, _⟩ := hk.unwind
  have hroom : split.mark + 1 ≤ s.trail.values.size := by
    have hassign := (hfits.assign (l := split.literal.negate) hfree hlt).inStep.length_le
    rw [Trail.length, Trail.literals_assign, List.length_cons, ← hmark] at hassign
    simpa using hassign
  obtain ⟨n, hn⟩ := Nat.exists_eq_add_of_le hroom
  have hopen : s.trail.values.size - split.mark = n + 1 := by omega
  have hopen' : s.trail.values.size - (split.mark + 1) = n := by omega
  obtain ⟨hpow, hpos⟩ := two_pow_succ n
  simp only [Config.left, Config.free, Split.left, Bool.false_eq_true, if_false, if_true,
    List.map_cons, List.sum_cons, State.trail_decide, State.trail_back, Trail.size_assign,
    Trail.size_undo, Trail.length, Trail.literals_assign, List.length_cons, ← hmark, hfirst]
  rw [hopen, hopen']
  omega

theorem Move.left_le (h : Move options clauses k k') (hk : k.Valid clauses) : k'.left ≤ k.left := by
  cases h with
  | force hc hunit => exact left_assign (State.trail_force ..)
  | fail hc hfalsified =>
      simp [Config.left]
  | pure hfree hlt hneg => exact left_assign (State.trail_assignPure ..)
  | decide hfree hlt => exact Nat.le_of_lt (left_decide hk.fits hfree hlt _)
  | retry hfirst => exact Nat.le_of_lt (left_retry hfirst hk _)
  | exhaust hsecond =>
      simp [Config.left]

theorem Moves.left_le (h : Moves options clauses k k') (hk : k.Valid clauses) :
    k'.left ≤ k.left := by
  induction h with
  | refl => exact Nat.le_refl _
  | tail hmoves hmove ih => exact Nat.le_trans (hmove.left_le (Moves.valid hmoves hk)) ih

theorem left_reopen {splits splits' : List Split} {s s' : State}
    (hvalid : Config.Valid clauses ⟨splits, s, true⟩)
    (h : reopen options splits s = .next splits' s') :
    Config.left ⟨splits', s', false⟩ < Config.left ⟨splits, s, true⟩ := by
  induction splits generalizing s with
  | nil => cases h
  | cons split outer ih =>
      unfold reopen at h
      split at h
      next hsecond =>
        have hmove : Move options clauses ⟨split :: outer, s, true⟩ _ := .exhaust hsecond
        exact Nat.lt_of_lt_of_le (ih (hmove.valid hvalid) h) (hmove.left_le hvalid)
      next hfirst =>
        cases h
        exact left_retry (Bool.eq_false_iff.mpr hfirst) hvalid _

/-- A step that leads to another one opens a case. -/
theorem left_step {splits splits' : List Split} {s s' : State}
    (hvalid : Config.Valid clauses ⟨splits, s, false⟩)
    (h : step options clauses splits s = .next splits' s') :
    Config.left ⟨splits', s', false⟩ < Config.left ⟨splits, s, false⟩ := by
  unfold step at h
  split at h
  next after hpropagate =>
    have hmoves : Moves options clauses ⟨splits, s, false⟩ ⟨splits, after, true⟩ :=
      moves_propagate hpropagate
    exact Nat.lt_of_lt_of_le (left_reopen (hmoves.valid hvalid) h) (hmoves.left_le hvalid)
  next after hpropagate =>
    obtain ⟨hfits, hlive⟩ := live_propagate hvalid.fits hpropagate
    have hmoves : Moves options clauses ⟨splits, s, false⟩ ⟨splits, after, false⟩ :=
      moves_propagate hpropagate
    have hpure : Moves options clauses ⟨splits, s, false⟩ ⟨splits, if options.pureLiterals then
        assignPure options clauses splits.length after else after, false⟩ := by
      split
      · exact hmoves.trans (moves_assignPure hfits hlive).1
      · exact hmoves
    dsimp only at h
    generalize (if options.pureLiterals then assignPure options clauses splits.length after
      else after) = last at h hpure
    split at h
    next => cases h
    next l hsome =>
      cases h
      obtain ⟨hlt, m, hm, hvar⟩ := branch?_eq_some hsome
      obtain ⟨_, _, _, _, hopen⟩ := mem_openLiterals.mp hm
      refine Nat.lt_of_lt_of_le ?_ (hpure.left_le hvalid)
      exact left_decide (hpure.valid hvalid).fits (hvar ▸ hopen) hlt _

end

/-! ## What a search costs -/

/-- A run that the budget affords is decided, and what else the budget affords is left. -/
theorem run_affords {options : Options} {clauses : List (Clause × Nat)} {splits : List Split}
    {s : State} {budget : Budget} {rest : Nat} (hvalid : Config.Valid clauses ⟨splits, s, false⟩)
    (h : budget.Affords (Config.left ⟨splits, s, false⟩ + 1 + rest)) :
    (∀ reason, (run options clauses splits s budget).outcome ≠ .unknown reason) ∧
      (run options clauses splits s budget).budget.Affords rest := by
  induction splits, s, budget using run.induct options clauses with
  | case1 splits s budget reason after hspend =>
      rw [Nat.add_right_comm] at h
      cases hspend.symm.trans h.spend.1
  | case2 splits s budget after hspend _ s' hstep =>
      rw [Nat.add_right_comm] at h
      have hafter := h.spend.2
      rw [hspend] at hafter
      rw [run_eq_of_granted hspend, hstep]
      exact ⟨fun _ => Outcome.noConfusion, hafter.mono (Nat.le_add_left _ _)⟩
  | case3 splits s budget after hspend _ s' hstep =>
      rw [Nat.add_right_comm] at h
      have hafter := h.spend.2
      rw [hspend] at hafter
      rw [run_eq_of_granted hspend, hstep]
      exact ⟨fun _ => Outcome.noConfusion, hafter.mono (Nat.le_add_left _ _)⟩
  | case4 splits s budget after hspend _ splits' s' hstep ih =>
      rw [Nat.add_right_comm] at h
      have hafter := h.spend.2
      rw [hspend] at hafter
      have hless := left_step hvalid hstep
      have hreaches := reaches_step options splits hvalid.fits
      rw [run_eq_of_granted hspend, hstep]
      rw [hstep] at hreaches
      cases hreaches with
      | next hmoves => exact ih (hmoves.valid hvalid) (hafter.mono (by omega))

/-- The most steps of a search over some variables. -/
def cost (size : Nat) : Nat := 2 ^ (size + 1) - 1

theorem cost_mono {size size' : Nat} (h : size ≤ size') : cost size ≤ cost size' :=
  Nat.sub_le_sub_right (Nat.pow_le_pow_right (by decide) (Nat.succ_le_succ h)) 1

theorem variableBound_le {clauses : List Clause} {bound : Nat}
    (h : ∀ c ∈ clauses, ∀ l ∈ c.literals, l.var < bound) : variableBound clauses ≤ bound := by
  have hfold : ∀ (ls : List Literal) (low : Nat), low ≤ bound → (∀ l ∈ ls, l.var < bound) →
      ls.foldl (fun low l => max low (l.var + 1)) low ≤ bound := by
    intro ls
    induction ls with
    | nil => exact fun low hlow _ => hlow
    | cons m ms ih =>
        intro low hlow hall
        obtain ⟨hm, hms⟩ := List.forall_mem_cons.mp hall
        exact ih (max low (m.var + 1)) (Nat.max_le.mpr ⟨hlow, hm⟩) hms
  refine hfold _ 0 (Nat.zero_le bound) fun l hl => ?_
  obtain ⟨c, hc, hl⟩ := List.mem_flatMap.mp hl
  exact h c hc l hl

/-- A search starts with as many cases left as its cost is, less the node it starts at. -/
theorem left_start (size : Nat) (clauses : List Clause) :
    (Config.start size clauses).left + 1 = cost (max size (variableBound clauses)) := by
  have hpow := two_pow_succ (max size (variableBound clauses))
  simp only [Config.start, Config.left, Config.free, Trail.start, Trail.length,
    Array.size_replicate, List.length_nil, List.map_nil, List.sum_nil, Bool.false_eq_true,
    if_false, cost, Nat.sub_zero]
  omega

/-- A search that the budget affords is decided, and what else the budget affords is left. -/
theorem solve_affords {options : Options} {size : Nat} {clauses : List Clause} {budget : Budget}
    {rest : Nat} (h : budget.Affords (cost (max size (variableBound clauses)) + rest)) :
    (∀ reason, (solve options size clauses budget).outcome ≠ .unknown reason) ∧
      (solve options size clauses budget).budget.Affords rest := by
  rw [← left_start] at h
  exact run_affords (valid_start size clauses) h

end Elenchus.Search
