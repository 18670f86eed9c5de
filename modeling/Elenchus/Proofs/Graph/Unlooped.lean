import Mathlib.Data.List.Sort
import Elenchus.Proofs.Graph.Blocking

/-!
# Nodes that wait for themselves

In a graph with loops a node from which no way on was found waits for itself too.  That is without
effect: a node is released before those that wait for it are unblocked, and a node that is not
blocked need not be pending (`CycleState.unblock_filter`).  So unblocking comes to the same whether
the nodes that wait for themselves are left out before or after it (`CycleState.unlooped_unblock`),
and a loop is not waited for (`CycleState.unlooped_wait`).
-/

namespace Elenchus

/-! ## Sets without a number -/

theorem filter_insertNat {n m : Nat} {set : List Nat} (hne : n ≠ m) (h : set.Pairwise (· < ·)) :
    (insertNat n set).filter (· ≠ m) = insertNat n (set.filter (· ≠ m)) := by
  refine List.Pairwise.eq_of_mem_iff ((pairwise_insertNat h).filter _)
    (pairwise_insertNat (h.filter _)) fun k => ?_
  simp only [List.mem_filter, mem_insertNat, decide_eq_true_eq]
  grind

theorem filter_insertNat_self (n : Nat) (set : List Nat) :
    (insertNat n set).filter (· ≠ n) = set.filter (· ≠ n) := by
  induction set with
  | nil => simp [insertNat]
  | cons m ms ih =>
      unfold insertNat
      split
      · simp
      split
      next heq => simp [heq]
      next => simp only [List.filter_cons, ih]

namespace CycleState

/-! ## Who waits for whom -/

theorem wait_cons (s : CycleState) (v w : Nat) (targets : List Nat) :
    s.wait v (w :: targets) = (s.wait v [w]).wait v targets := rfl

theorem waiters_wait_singleton (s : CycleState) (v w y : Nat) :
    (s.wait v [w]).waiters y =
      if w = y ∧ y < s.waiting.size then insertNat v (s.waiters y) else s.waiters y := by
  simp only [wait, waiters, List.foldl_cons, List.foldl_nil, Array.getD_eq_getD_getElem?,
    Array.getElem?_modify]
  by_cases hsize : y < s.waiting.size
  · by_cases heq : w = y <;> simp [hsize, heq]
  · by_cases heq : w = y <;> simp [hsize, heq]

/-- The state in which no node waits for itself. -/
def unlooped (s : CycleState) : CycleState :=
  { s with waiting := s.waiting.mapIdx fun w row => row.filter (· ≠ w) }

theorem waiters_unlooped (s : CycleState) (w : Nat) :
    s.unlooped.waiters w = (s.waiters w).filter (· ≠ w) := by
  simp only [unlooped, waiters, Array.getD_eq_getD_getElem?, Array.getElem?_mapIdx]
  cases s.waiting[w]? <;> rfl

theorem mapIdx_replicate_nil (size : Nat) (f : Nat → Nat → Bool) :
    (Array.replicate size []).mapIdx (fun w row => row.filter (f w)) = Array.replicate size [] := by
  refine Array.ext (by simp) fun i hi _ => ?_
  simp

theorem unlooped_start (size : Nat) (budget : Budget) :
    (start size budget).unlooped = start size budget := by
  rw [unlooped, start, mapIdx_replicate_nil]

theorem unlooped_reset (s : CycleState) : s.reset.unlooped = s.unlooped.reset := by
  rw [unlooped, reset, mapIdx_replicate_nil]
  rfl

theorem unlooped_release (s : CycleState) (v : Nat) :
    (s.release v).unlooped = s.unlooped.release v := by
  simp [release, unlooped]

/-! ## Unblocking -/

theorem unblock_cons_of_blocked {s : CycleState} {v : Nat} (h : s.blocked.has v = true)
    (pending : List Nat) :
    s.unblock (v :: pending) = (s.release v).unblock ((s.waiters v).reverse ++ pending) := by
  rw [unblock, if_pos h]

theorem unblock_cons_of_free {s : CycleState} {v : Nat} (h : ¬s.blocked.has v = true)
    (pending : List Nat) : s.unblock (v :: pending) = s.unblock pending := by
  rw [unblock, if_neg h]

theorem unblock_append (s : CycleState) (pending more : List Nat) :
    s.unblock (pending ++ more) = (s.unblock pending).unblock more := by
  induction s, pending using CycleState.unblock.induct with
  | case1 s => rw [List.nil_append, unblock]
  | case2 s v pending hblocked ih =>
      rw [List.cons_append, unblock_cons_of_blocked hblocked, unblock_cons_of_blocked hblocked,
        ← List.append_assoc, ih]
  | case3 s v pending hblocked ih =>
      rw [List.cons_append, unblock_cons_of_free hblocked, unblock_cons_of_free hblocked, ih]

theorem blocked_of_unblock {s : CycleState} {pending : List Nat} {x : Nat}
    (h : (s.unblock pending).blocked.has x = true) : s.blocked.has x = true :=
  unblock_induction (P := fun t => t.blocked.has x = true → s.blocked.has x = true)
    (fun _ _ _ ih hx => ih (Marks.has_unmark.mp hx).2) id pending h

/-- A node that is not blocked need not be pending. -/
theorem unblock_filter {s : CycleState} {v : Nat} (hv : ¬s.blocked.has v = true)
    (pending : List Nat) : s.unblock (pending.filter (· ≠ v)) = s.unblock pending := by
  induction pending generalizing s with
  | nil => rfl
  | cons w pending ih =>
      by_cases heq : w = v
      · subst heq
        rw [List.filter_cons_of_neg (by simp), unblock_cons_of_free hv, ih hv]
      · have hrest := ih (s := s.unblock [w]) fun h => hv (blocked_of_unblock h)
        rw [List.filter_cons_of_pos (by simpa using heq), ← List.singleton_append, unblock_append,
          hrest, ← unblock_append, List.singleton_append]

/-- Where a node waits for itself, it is released before it could be unblocked for that. -/
theorem unlooped_unblock (s : CycleState) (pending : List Nat) :
    (s.unblock pending).unlooped = s.unlooped.unblock pending := by
  induction s, pending using CycleState.unblock.induct with
  | case1 s => rw [unblock, unblock]
  | case2 s v pending hblocked ih =>
      have hblocked' : s.unlooped.blocked.has v = true := hblocked
      have hfree : ¬(s.unlooped.release v).blocked.has v = true :=
        fun h => (Marks.has_unmark.mp h).1 rfl
      rw [unblock_cons_of_blocked hblocked, unblock_cons_of_blocked hblocked', ih,
        unlooped_release, waiters_unlooped, ← List.filter_reverse, unblock_append, unblock_append,
        unblock_filter hfree]
  | case3 s v pending hblocked ih =>
      have hblocked' : ¬s.unlooped.blocked.has v = true := hblocked
      rw [unblock_cons_of_free hblocked, unblock_cons_of_free hblocked', ih]

/-! ## Waiting -/

/-- All rows of waiting nodes ascend. -/
def Ascending (s : CycleState) : Prop := ∀ w, (s.waiters w).Pairwise (· < ·)

theorem Ascending.wait_singleton {s : CycleState} (h : s.Ascending) (v w : Nat) :
    (s.wait v [w]).Ascending := by
  intro y
  rw [waiters_wait_singleton]
  split
  · exact pairwise_insertNat (h y)
  · exact h y

theorem Ascending.wait {s : CycleState} (h : s.Ascending) (v : Nat) (targets : List Nat) :
    (s.wait v targets).Ascending := by
  induction targets generalizing s with
  | nil => exact h
  | cons w targets ih =>
      rw [wait_cons]
      exact ih (h.wait_singleton v w)

theorem Ascending.release {s : CycleState} (h : s.Ascending) (v : Nat) :
    (s.release v).Ascending := by
  intro y
  simp only [CycleState.release, waiters, Array.getD_eq_getD_getElem?,
    Array.getElem?_setIfInBounds]
  split
  · split <;> simp
  · simpa [waiters, Array.getD_eq_getD_getElem?] using h y

theorem ext_waiters {s t : CycleState} (hblocked : s.blocked = t.blocked)
    (hcycles : s.cycles = t.cycles) (htruncated : s.truncated = t.truncated)
    (hbudget : s.budget = t.budget) (hsize : s.waiting.size = t.waiting.size)
    (hwaiters : ∀ w, s.waiters w = t.waiters w) : s = t := by
  obtain ⟨_, waiting, _, _, _⟩ := s
  obtain ⟨_, waiting', _, _, _⟩ := t
  have hwaiting : waiting = waiting' := by
    refine Array.ext hsize fun w hw hw' => ?_
    simpa [waiters, Array.getD_eq_getD_getElem?, hw, hw'] using hwaiters w
  simp_all

theorem unlooped_wait_singleton {s : CycleState} (h : s.Ascending) {v w : Nat} (hne : w ≠ v) :
    (s.wait v [w]).unlooped = s.unlooped.wait v [w] := by
  refine ext_waiters rfl rfl rfl rfl ?_ fun y => ?_
  · simp [unlooped, wait]
  · have hsize : s.unlooped.waiting.size = s.waiting.size := by simp [unlooped]
    rw [waiters_unlooped, waiters_wait_singleton, waiters_wait_singleton, waiters_unlooped, hsize]
    split
    next hw => exact filter_insertNat (hw.1 ▸ hne.symm) (h y)
    next => rfl

theorem unlooped_wait_self (s : CycleState) (v : Nat) : (s.wait v [v]).unlooped = s.unlooped := by
  refine ext_waiters rfl rfl rfl rfl ?_ fun y => ?_
  · simp [unlooped, wait]
  · rw [waiters_unlooped, waiters_wait_singleton, waiters_unlooped]
    split
    next hw => rw [← hw.1, filter_insertNat_self]
    next => rfl

theorem unlooped_wait {s : CycleState} (h : s.Ascending) (v : Nat) (targets : List Nat) :
    (s.wait v targets).unlooped = s.unlooped.wait v (targets.filter (· ≠ v)) := by
  induction targets generalizing s with
  | nil => rfl
  | cons w targets ih =>
      rw [wait_cons, ih (h.wait_singleton v w)]
      by_cases heq : w = v
      · rw [List.filter_cons_of_neg (by simpa using heq), heq, unlooped_wait_self]
      · rw [List.filter_cons_of_pos (by simpa using heq), unlooped_wait_singleton h heq]
        rfl

end CycleState

end Elenchus
