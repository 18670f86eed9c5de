import Elenchus.Proofs.Graph.Cycle

/-!
# A search for cycles that is stopped

A budget can stop a search for cycles, and does nothing else to it.  What was found before the stop
is the beginning of what is found under a budget that never refuses (`circuits_precedes`), so that
whatever the budget, nothing but elementary cycles is found (`isCycle_of_searchCycles`).

The two searches are followed side by side from states that differ in their budgets only
(`CycleState.under`).  They give the same answers until the first one is stopped (`Continues`); from
there on the second one finds more, and no search takes back what it has found
(`CycleState.Precedes`).
-/

namespace Elenchus

namespace CycleState

/-- What was found in one state is the beginning of what was found in another. -/
def Precedes (s t : CycleState) : Prop := s.cycles.toList <+: t.cycles.toList

/-- The same state with another budget. -/
def under (s : CycleState) (budget : Budget) : CycleState := { s with budget }

theorem Precedes.refl (s : CycleState) : s.Precedes s := List.prefix_refl _

theorem Precedes.trans {s t u : CycleState} (h : s.Precedes t) (h' : t.Precedes u) : s.Precedes u :=
  List.IsPrefix.trans h h'

theorem precedes_found (s : CycleState) (limit : Nat) (cycle : List Nat) :
    s.Precedes (s.found limit cycle) := by
  show s.cycles.toList <+: (s.cycles.push cycle).toList
  rw [Array.toList_push]
  exact List.prefix_append _ _

theorem precedes_unblock (s : CycleState) (pending : List Nat) : s.Precedes (s.unblock pending) := by
  simp [Precedes, (s.unblock_found pending).1]

theorem unblock_under (s : CycleState) (budget : Budget) (pending : List Nat) :
    (s.under budget).unblock pending = (s.unblock pending).under budget := by
  induction s, pending using CycleState.unblock.induct with
  | case1 s =>
      rw [CycleState.unblock, CycleState.unblock]
  | case2 s v pending hblocked ih =>
      have hblocked' : (s.under budget).blocked.has v = true := hblocked
      rw [CycleState.unblock, CycleState.unblock, if_pos hblocked, if_pos hblocked']
      exact ih
  | case3 s v pending hblocked ih =>
      have hblocked' : ¬(s.under budget).blocked.has v = true := hblocked
      rw [CycleState.unblock, CycleState.unblock, if_neg hblocked, if_neg hblocked']
      exact ih

end CycleState

/-- What is done when a node is left, after its targets have been followed. -/
def CycleState.leave (v : Nat) (targets : List Nat) :
    Except Exhaustion Bool × CycleState → Except Exhaustion Bool × CycleState
  | (.error reason, s) => (.error reason, s)
  | (.ok true, s) => (.ok true, s.unblock [v])
  | (.ok false, s) => (.ok false, s.wait v targets)

section
variable {g : Adjacency} {component : Marks} {start limit room v : Nat} {path : List Nat}
  {s : CycleState}

theorem circuit_refused {reason : Exhaustion} (h : s.budget.check = some reason) :
    g.circuit component start limit (room + 1) path v s = (.error reason, s.looked) := by
  rw [Adjacency.circuit, h]

theorem circuit_granted (h : s.budget.check = none) :
    g.circuit component start limit (room + 1) path v s =
      CycleState.leave v ((g.targets v).filter component.has)
        (Adjacency.along component start limit (g.circuit component start limit room (v :: path))
          (v :: path) (g.targets v) false (s.looked.block v)) := by
  rw [Adjacency.circuit, h]
  dsimp only
  generalize Adjacency.along component start limit _ _ _ _ _ = followed
  obtain ⟨answer, after⟩ := followed
  cases answer with
  | error reason => rfl
  | ok closed => cases closed <;> rfl

end

/-- An answer under one budget, and the answer under one that never refuses: they are the same, and
so are the states apart from the budget, or else the first search was stopped. -/
inductive Continues :
    Except Exhaustion Bool × CycleState → Except Exhaustion Bool × CycleState → Prop
  | same {closed : Bool} {s : CycleState} {budget : Budget} :
      budget.Unhindered → Continues (.ok closed, s) (.ok closed, s.under budget)
  | stopped {reason : Exhaustion} {s : CycleState}
      {again : Except Exhaustion Bool × CycleState} :
      s.Precedes again.2 → Continues (.error reason, s) again

/-! ## What was found stays -/

section
variable (component : Marks) (start limit : Nat)
  {descend : Nat → CycleState → Except Exhaustion Bool × CycleState}

theorem precedes_along (hdescend : ∀ next (s : CycleState), s.Precedes (descend next s).2)
    (path targets : List Nat) (closed : Bool) (s : CycleState) :
    s.Precedes (Adjacency.along component start limit descend path targets closed s).2 := by
  induction targets generalizing closed s with
  | nil => exact .refl s
  | cons next rest ih =>
      unfold Adjacency.along
      split
      · exact .refl s
      split
      · exact ih closed s
      split
      · exact (s.precedes_found limit path.reverse).trans (ih true _)
      split
      · exact ih closed s
      have hnext := hdescend next s
      split
      next after heq =>
        rw [heq] at hnext
        exact hnext
      next below after heq =>
        rw [heq] at hnext
        exact hnext.trans (ih (closed || below) after)

omit component start limit in
theorem precedes_leave (v : Nat) (targets : List Nat)
    (followed : Except Exhaustion Bool × CycleState) :
    followed.2.Precedes (CycleState.leave v targets followed).2 := by
  obtain ⟨answer, after⟩ := followed
  cases answer with
  | error reason => exact .refl after
  | ok closed =>
      cases closed with
      | true => exact after.precedes_unblock [v]
      | false => exact .refl after

theorem precedes_circuit (g : Adjacency) (room : Nat) (path : List Nat) (v : Nat)
    (s : CycleState) : s.Precedes (g.circuit component start limit room path v s).2 := by
  induction room generalizing path v s with
  | zero => exact .refl s
  | succ room ih =>
      cases hcheck : s.budget.check with
      | some reason =>
          rw [circuit_refused hcheck]
          exact .refl s
      | none =>
          have halong := precedes_along component start limit (fun next s => ih (v :: path) next s)
            (v :: path) (g.targets v) false (s.looked.block v)
          rw [circuit_granted hcheck]
          exact halong.trans (precedes_leave v _ _)

end

theorem precedes_circuits (g reversed : Adjacency) (maxLength limit : Nat) (starts : List Nat)
    (s : CycleState) : s.Precedes (g.circuits reversed maxLength limit starts s).2 := by
  induction starts generalizing s with
  | nil => exact .refl s
  | cons start rest ih =>
      unfold Adjacency.circuits
      dsimp only
      split
      · exact ih s
      have hcircuit : s.Precedes (g.circuit (g.component reversed start) start limit maxLength []
          start s.reset).2 :=
        precedes_circuit (g.component reversed start) start limit g maxLength [] start s.reset
      split
      next heq =>
        rw [heq] at hcircuit
        exact hcircuit
      next after heq =>
        rw [heq] at hcircuit
        split
        · exact hcircuit
        · exact hcircuit.trans (ih after)

/-! ## Side by side -/

section
variable (component : Marks) (start limit : Nat)
  {descend : Nat → CycleState → Except Exhaustion Bool × CycleState}

theorem continues_along (hgrows : ∀ next (s : CycleState), s.Precedes (descend next s).2)
    (hdescend : ∀ next s {budget : Budget}, budget.Unhindered →
      Continues (descend next s) (descend next (s.under budget)))
    (path targets : List Nat) (closed : Bool) (s : CycleState) {budget : Budget}
    (h : budget.Unhindered) :
    Continues (Adjacency.along component start limit descend path targets closed s)
      (Adjacency.along component start limit descend path targets closed (s.under budget)) := by
  induction targets generalizing closed s budget with
  | nil => exact .same h
  | cons next rest ih =>
      have htruncated : (s.under budget).truncated = s.truncated := rfl
      have hblocked : (s.under budget).blocked = s.blocked := rfl
      unfold Adjacency.along
      rw [htruncated, hblocked]
      split
      · exact .same h
      split
      · exact ih closed s h
      split
      · exact ih true (s.found limit path.reverse) h
      split
      · exact ih closed s h
      have hnext := hdescend next s h
      generalize descend next s = first at hnext
      generalize descend next (s.under budget) = again at hnext
      cases hnext with
      | @same below after left hleft => exact ih (closed || below) after hleft
      | stopped hprecedes =>
          obtain ⟨answer, t⟩ := again
          cases answer with
          | error reason => exact .stopped hprecedes
          | ok below =>
              exact .stopped (hprecedes.trans
                (precedes_along component start limit hgrows path rest _ t))

omit component start limit in
theorem Continues.leave {first again : Except Exhaustion Bool × CycleState}
    (h : Continues first again) (v : Nat) (targets : List Nat) :
    Continues (CycleState.leave v targets first) (CycleState.leave v targets again) := by
  cases h with
  | @same closed s budget hbudget =>
      cases closed with
      | true =>
          rw [CycleState.leave, CycleState.leave, s.unblock_under]
          exact .same hbudget
      | false => exact .same hbudget
  | stopped hprecedes => exact .stopped (hprecedes.trans (precedes_leave v targets again))

theorem continues_circuit (g : Adjacency) (room : Nat) (path : List Nat) (v : Nat)
    (s : CycleState) {budget : Budget} (h : budget.Unhindered) :
    Continues (g.circuit component start limit room path v s)
      (g.circuit component start limit room path v (s.under budget)) := by
  induction room generalizing path v s budget with
  | zero => exact .same h
  | succ room ih =>
      cases hcheck : s.budget.check with
      | some reason =>
          rw [circuit_refused hcheck]
          exact .stopped
            (precedes_circuit component start limit g (room + 1) path v (s.under budget))
      | none =>
          have hcheck' : (s.under budget).budget.check = none := h.check
          rw [circuit_granted hcheck, circuit_granted hcheck']
          have hfollowed := continues_along component start limit
            (fun next s => precedes_circuit component start limit g room (v :: path) next s)
            (fun next s _ hbudget => ih (v :: path) next s hbudget) (v :: path) (g.targets v) false
            (s.looked.block v) h.looked
          exact hfollowed.leave v _

end

/-- What a stopped search has found is the beginning of what is found under a budget that never
refuses. -/
theorem circuits_precedes (g reversed : Adjacency) (maxLength limit : Nat) (starts : List Nat)
    (s : CycleState) {budget : Budget} (h : budget.Unhindered) :
    (g.circuits reversed maxLength limit starts s).2.Precedes
      (g.circuits reversed maxLength limit starts (s.under budget)).2 := by
  induction starts generalizing s budget with
  | nil => exact .refl s
  | cons start rest ih =>
      have hcircuit := continues_circuit (g.component reversed start) start limit g maxLength []
        start s.reset h
      have hreset : (s.under budget).reset = s.reset.under budget := rfl
      unfold Adjacency.circuits
      dsimp only
      rw [hreset]
      split
      · exact ih s h
      generalize g.circuit (g.component reversed start) start limit maxLength [] start s.reset =
        first at hcircuit
      generalize g.circuit (g.component reversed start) start limit maxLength [] start
        (s.reset.under budget) = again at hcircuit
      cases hcircuit with
      | @same closed after left hleft =>
          have htruncated : (after.under left).truncated = after.truncated := rfl
          dsimp only
          rw [htruncated]
          split
          · exact .refl after
          · exact ih after hleft
      | stopped hprecedes =>
          obtain ⟨answer, t⟩ := again
          cases answer with
          | error reason => exact hprecedes
          | ok closed =>
              dsimp only
              split
              · exact hprecedes
              · exact hprecedes.trans (precedes_circuits g reversed maxLength limit rest t)

/-! ## What is found -/

/-- In a graph without loops nothing but elementary cycles is found, whatever the budget. -/
theorem Adjacency.isCycle_of_searchCycles {g : Adjacency}
    (hloops : ∀ v ∈ g.nodes, v ∉ g.targets v) {maxLength maxCount : Nat} {budget : Budget}
    {cycle : List Nat} (h : cycle ∈ (g.searchCycles maxLength maxCount budget).1.cycles) :
    g.IsCycle cycle ∧ 2 ≤ cycle.length ∧ cycle.length ≤ maxLength := by
  unfold searchCycles at h
  split at h
  next => exact absurd h List.not_mem_nil
  next hsome =>
    have hunlimited : Budget.unlimited.Unhindered := Budget.unhindered_of_never rfl rfl
    have hlists : Lists maxCount [] (.start g.size .unlimited) :=
      ⟨(List.take_nil).symm, (decide_eq_false (fun hle => hsome (.inr (Nat.le_zero.mp hle)))).symm⟩
    obtain ⟨after, heq, hafter⟩ := circuits_spec hloops maxLength maxCount
      (List.Subset.refl g.nodes) hlists hunlimited (Marks.size_none g.size) rfl
    have hprecedes := circuits_precedes g g.reverse maxLength maxCount g.nodes
      (.start g.size budget) hunlimited
    change (g.circuits g.reverse maxLength maxCount g.nodes (.start g.size budget)).2.Precedes
      (g.circuits g.reverse maxLength maxCount g.nodes (.start g.size .unlimited)).2 at hprecedes
    rw [heq] at hprecedes
    have hfound : cycle ∈ after.cycles.toList := hprecedes.subset h
    rw [hafter.cycles, List.nil_append] at hfound
    exact (mem_listing hloops).mp (List.mem_of_mem_take hfound)

end Elenchus
