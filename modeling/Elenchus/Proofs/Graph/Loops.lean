import Elenchus.Proofs.Graph.Loopless
import Elenchus.Proofs.Graph.Stopped
import Elenchus.Proofs.Graph.Unlooped

/-!
# Loops in a search for cycles

A search for cycles passes a loop over, for its node is blocked when the targets of it are followed.
Only where the loop is at the first node does it close the path of that one node.  A first node that
is alone in its component is not searched from; so a loop is found just if it is at the lowest node
of a longer elementary cycle (`Adjacency.HarmlessLoops`).  If none is, the search finds in the graph
what it finds in the graph without its loops, whatever its bounds and its budget
(`findCycles_loopless`).

The two searches are followed side by side: the state of the one without the nodes that wait for
themselves is the state of the other (`circuit_unlooped`).  That the node of a loop is blocked while
its targets are followed has to be known under any budget, but only until the search is cut off.  For
this it is enough that no node is waited for that is not blocked (`CycleState.Orderly`).  It is so
because a node waits for its targets when it is left without a way on, and each of them was found
blocked or was left blocked itself (`CycleState.Keeps`).
-/

namespace Elenchus

namespace CycleState

/-! ## What a search keeps in order -/

/-- The waiting nodes ascend, and only for blocked nodes is waited, at least as long as the search
is not cut off. -/
structure Orderly (size : Nat) (s : CycleState) : Prop where
  size_blocked : s.blocked.size = size
  ascending : s.Ascending
  awaited : s.truncated = false → ∀ x y, x ∈ s.waiters y → s.blocked.has y = true

section
variable {size : Nat} {s : CycleState}

theorem orderly_reset (s : CycleState) : s.reset.Orderly s.blocked.size := by
  refine ⟨Marks.size_none _, fun w => ?_, fun _ x y hmem => ?_⟩
  · rw [waiters_reset]
    exact .nil
  · rw [waiters_reset] at hmem
    cases hmem

theorem running_of_found {limit : Nat} {cycle : List Nat}
    (h : (s.found limit cycle).truncated = false) : s.truncated = false :=
  (Bool.or_eq_false_iff.mp h).1

theorem Orderly.found (h : s.Orderly size) (limit : Nat) (cycle : List Nat) :
    (s.found limit cycle).Orderly size :=
  ⟨h.size_blocked, h.ascending, fun hrunning => h.awaited (running_of_found hrunning)⟩

theorem Orderly.block (h : s.Orderly size) (v : Nat) : (s.looked.block v).Orderly size where
  size_blocked := (Marks.size_mark _ _).trans h.size_blocked
  ascending := h.ascending
  awaited := fun hrunning x y hmem => Marks.has_mark.mpr (.inr (h.awaited hrunning x y hmem))

theorem Orderly.has_block (h : s.Orderly size) {v : Nat} (hv : v < size) :
    (s.looked.block v).blocked.has v = true :=
  Marks.has_mark.mpr (.inl ⟨rfl, h.size_blocked ▸ hv⟩)

theorem Orderly.release (h : s.Orderly size) (v : Nat) : (s.release v).Orderly size where
  size_blocked := (Marks.size_unmark _ _).trans h.size_blocked
  ascending := h.ascending.release v
  awaited := by
    intro hrunning x y hmem
    obtain ⟨hne, hold⟩ := mem_waiters_release.mp hmem
    exact Marks.has_unmark.mpr ⟨hne, h.awaited hrunning x y hold⟩

theorem Orderly.unblock (h : s.Orderly size) (pending : List Nat) :
    (s.unblock pending).Orderly size :=
  unblock_induction (fun _ v _ h => h.release v) h pending

theorem Orderly.wait (h : s.Orderly size) (v : Nat) {targets : List Nat}
    (hall : s.truncated = false → ∀ w ∈ targets, s.blocked.has w = true) :
    (s.wait v targets).Orderly size where
  size_blocked := h.size_blocked
  ascending := h.ascending.wait v targets
  awaited := by
    intro hrunning x y hmem
    rcases mem_waiters_wait.mp hmem with hold | ⟨_, htarget, _⟩
    · exact h.awaited hrunning x y hold
    · exact hall hrunning y htarget

end

/-- What a part of a search that starts from a state comes to, unless it is cut off: what was
blocked still is, and if no way on was found, some more nodes are blocked. -/
structure Keeps (size : Nat) (s : CycleState) (barred : List Nat)
    (answer : Except Exhaustion Bool × CycleState) : Prop where
  orderly : answer.2.Orderly size
  running : answer.2.truncated = false → s.truncated = false
  blocked : answer.2.truncated = false → ∀ x, s.blocked.has x = true →
    answer.2.blocked.has x = true
  barred : answer.2.truncated = false → answer.1 = .ok false → ∀ x ∈ barred,
    answer.2.blocked.has x = true

section
variable {size : Nat} {s : CycleState} {barred : List Nat}

theorem Orderly.keeps (h : s.Orderly size) (closed : Bool)
    (hbarred : s.truncated = false → ∀ x ∈ barred, s.blocked.has x = true) :
    Keeps size s barred (.ok closed, s) :=
  ⟨h, fun hrunning => hrunning, fun _ _ hx => hx, fun hrunning _ => hbarred hrunning⟩

/-- Where a way on was found, or the search was stopped, nothing more has to be blocked. -/
theorem Orderly.keeps_of_ne {answer : Except Exhaustion Bool × CycleState}
    (h : answer.2.Orderly size) (hrunning : answer.2.truncated = false → s.truncated = false)
    (hblocked : answer.2.truncated = false → ∀ x, s.blocked.has x = true →
      answer.2.blocked.has x = true) (hanswer : answer.1 ≠ .ok false) :
    Keeps size s barred answer :=
  ⟨h, hrunning, hblocked, fun _ heq => absurd heq hanswer⟩

theorem Orderly.keeps_found (h : s.Orderly size) (limit : Nat) (cycle : List Nat) :
    Keeps size s barred (.ok true, s.found limit cycle) :=
  (h.found limit cycle).keeps_of_ne running_of_found (fun _ _ hx => hx) (by simp)

theorem Keeps.closed {below : Bool} {after : CycleState} (h : Keeps size s barred (.ok below, after))
    (closed : Bool) : Keeps size s barred (.ok (closed || below), after) := by
  refine ⟨h.orderly, h.running, h.blocked, fun hrunning hanswer => h.barred hrunning ?_⟩
  cases below with
  | false => rfl
  | true => cases closed <;> cases hanswer

theorem Keeps.trans {more : List Nat} {closed : Bool} {between : CycleState}
    {answer : Except Exhaustion Bool × CycleState} (h : Keeps size s barred (.ok closed, between))
    (h' : Keeps size between more answer) (hclosed : answer.1 = .ok false → closed = false) :
    Keeps size s (barred ++ more) answer where
  orderly := h'.orderly
  running := fun hrunning => h.running (h'.running hrunning)
  blocked := fun hrunning x hx =>
    h'.blocked hrunning x (h.blocked (h'.running hrunning) x hx)
  barred := by
    intro hrunning hanswer
    have hbetween := h'.running hrunning
    refine List.forall_mem_append.mpr ⟨fun x hx => ?_, h'.barred hrunning hanswer⟩
    exact h'.blocked hrunning x
      (h.barred hbetween (congrArg Except.ok (hclosed hanswer)) x hx)

/-- If the node that is left stays blocked, it waits for nodes that are blocked. -/
theorem Keeps.leave {v : Nat} {targets : List Nat}
    {followed : Except Exhaustion Bool × CycleState}
    (h : Keeps size (s.looked.block v) targets followed)
    (hmarked : (s.looked.block v).blocked.has v = true)
    (hheld : s.truncated = false → (leave v targets followed).2.Held (s.blocked.has · = true)) :
    Keeps size s [v] (leave v targets followed) := by
  obtain ⟨answer, between⟩ := followed
  cases answer with
  | error reason =>
      exact h.orderly.keeps_of_ne h.running
        (fun hrunning => (hheld (h.running hrunning)).blocked) (by simp)
  | ok closed =>
      cases closed with
      | true =>
          have htruncated := (between.unblock_found [v]).2.1
          have hrunning : (between.unblock [v]).truncated = false → s.truncated = false :=
            fun hrunning => h.running (htruncated ▸ hrunning)
          exact (h.orderly.unblock [v]).keeps_of_ne hrunning
            (fun hafter => (hheld (hrunning hafter)).blocked) (by simp [CycleState.leave])
      | false =>
          exact ⟨h.orderly.wait v fun hrunning => h.barred hrunning rfl, h.running,
            fun hrunning => (hheld (h.running hrunning)).blocked,
            fun hrunning _ => List.forall_mem_singleton.mpr (h.blocked hrunning v hmarked)⟩

theorem unlooped_leave {followed : Except Exhaustion Bool × CycleState}
    (h : followed.2.Ascending) (v : Nat) (targets : List Nat) :
    (leave v targets followed).map id unlooped =
      leave v (targets.filter (· ≠ v)) (followed.map id unlooped) := by
  obtain ⟨answer, between⟩ := followed
  cases answer with
  | error reason => rfl
  | ok closed =>
      cases closed with
      | true => exact Prod.ext rfl (unlooped_unblock between [v])
      | false => exact Prod.ext rfl (unlooped_wait h v targets)

end

end CycleState

open CycleState

section
variable {component : Marks} {start limit : Nat}
  {descend : Nat → CycleState → Except Exhaustion Bool × CycleState} {path targets : List Nat}
  {closed : Bool} {s : CycleState}

theorem along_of_truncated (h : s.truncated = true) :
    Adjacency.along component start limit descend path targets closed s = (.ok closed, s) := by
  cases targets with
  | nil => rfl
  | cons next rest => rw [Adjacency.along, if_pos h]

/-- A way on that was found before is not forgotten. -/
theorem closed_of_along
    (h : (Adjacency.along component start limit descend path targets closed s).1 = .ok false) :
    closed = false := by
  induction targets generalizing closed s with
  | nil => exact Except.ok.inj h
  | cons next rest ih =>
      unfold Adjacency.along at h
      split at h
      · exact Except.ok.inj h
      split at h
      · exact ih h
      split at h
      · cases ih h
      split at h
      · exact ih h
      split at h
      · cases h
      · exact (Bool.or_eq_false_iff.mp (ih h)).1

end

section
variable (component : Marks) (start limit : Nat) {size : Nat} {s : CycleState}

theorem keeps_along {descend : Nat → CycleState → Except Exhaustion Bool × CycleState}
    (hdescend : ∀ next s, component.has next = true → ¬s.blocked.has next = true →
      s.Orderly size → Keeps size s [next] (descend next s))
    (path targets : List Nat) (closed : Bool) (h : s.Orderly size) :
    Keeps size s (targets.filter component.has)
      (Adjacency.along component start limit descend path targets closed s) := by
  induction targets generalizing closed s with
  | nil => exact h.keeps closed fun _ => List.forall_mem_nil _
  | cons next rest ih =>
      by_cases hcut : s.truncated = true
      · rw [along_of_truncated hcut]
        exact h.keeps closed fun hrunning => absurd hcut (Bool.eq_false_iff.mp hrunning)
      unfold Adjacency.along
      rw [if_neg hcut]
      by_cases hout : (!component.has next) = true
      · rw [if_pos hout, List.filter_cons_of_neg (by simpa using hout)]
        exact ih closed h
      have hin : component.has next = true := by simpa using hout
      rw [if_neg hout, List.filter_cons_of_pos hin]
      -- What is left to do once the first target is dealt with.
      have hgo : ∀ {below : Bool} {between : CycleState},
          Keeps size s [next] (.ok below, between) →
          Keeps size s (next :: rest.filter component.has)
            (Adjacency.along component start limit descend path rest below between) :=
        fun hfirst => hfirst.trans (ih _ hfirst.orderly) closed_of_along
      split
      · exact hgo (h.keeps_found limit path.reverse)
      split
      next hblocked =>
        exact hgo (h.keeps closed fun _ => List.forall_mem_singleton.mpr hblocked)
      next hfree =>
        have hnext := hdescend next s hin hfree h
        generalize descend next s = entered at hnext
        obtain ⟨answer, between⟩ := entered
        cases answer with
        | error reason =>
            exact hnext.orderly.keeps_of_ne hnext.running hnext.blocked (by simp)
        | ok below => exact hgo (hnext.closed closed)

/-- A node from which no way on was found stays blocked, and so do the nodes that were blocked when
it was entered. -/
theorem keeps_circuit (g : Adjacency) (hsize : ∀ v, component.has v = true → v < size) (room : Nat)
    (path : List Nat) {v : Nat} (hv : component.has v = true) (hfree : ¬s.blocked.has v = true)
    (h : s.Orderly size) :
    Keeps size s [v] (g.circuit component start limit room path v s) := by
  induction room generalizing path v s with
  | zero =>
      exact h.keeps_of_ne (fun hrunning => hrunning) (fun _ _ hx => hx) (by simp [Adjacency.circuit])
  | succ room ih =>
      cases hcheck : s.budget.check with
      | some reason =>
          rw [circuit_refused hcheck]
          have hlooked : s.looked.Orderly size := ⟨h.size_blocked, h.ascending, h.awaited⟩
          exact hlooked.keeps_of_ne (fun hrunning => hrunning) (fun _ _ hx => hx) (by simp)
      | none =>
          have hheld : s.truncated = false →
              (g.circuit component start limit (room + 1) path v s).2.Held
                (s.blocked.has · = true) :=
            fun hrunning => (held_blocked (h.awaited hrunning)).circuit g (room + 1) path hfree
          rw [circuit_granted hcheck] at hheld ⊢
          have hfollowed := keeps_along component start limit
            (fun _ _ hnext hfree hs => ih (v :: path) hnext hfree hs) (v :: path) (g.targets v)
            false (h.block v)
          exact hfollowed.leave (h.has_block (hsize v hv)) hheld

/-! ## Side by side -/

/-- Going on along the targets of a blocked node, its loop is passed over, unless it is the first
node. -/
theorem along_unlooped
    {descend descend' : Nat → CycleState → Except Exhaustion Bool × CycleState} {v : Nat}
    (hkeeps : ∀ next s, component.has next = true → ¬s.blocked.has next = true →
      s.Orderly size → Keeps size s [next] (descend next s))
    (hdescend : ∀ next s, component.has next = true → ¬s.blocked.has next = true →
      s.Orderly size → descend' next s.unlooped = (descend next s).map id unlooped)
    (path : List Nat) {targets : List Nat} (hfirst : start ∈ targets → start ≠ v) (closed : Bool)
    {s : CycleState} (h : s.Orderly size) (hv : s.truncated = false → s.blocked.has v = true) :
    Adjacency.along component start limit descend' path (targets.filter (· ≠ v)) closed
        s.unlooped =
      (Adjacency.along component start limit descend path targets closed s).map id unlooped := by
  induction targets generalizing closed s with
  | nil => rfl
  | cons next rest ih =>
      have hrest := ih fun hmem => hfirst (List.mem_cons_of_mem next hmem)
      by_cases hcut : s.truncated = true
      · rw [along_of_truncated hcut, along_of_truncated (s := s.unlooped) hcut]
        rfl
      have hrunning : s.truncated = false := Bool.eq_false_iff.mpr hcut
      by_cases hloop : next = v
      · subst hloop
        have hne : next ≠ start := fun heq => hfirst (heq ▸ List.mem_cons_self) heq.symm
        rw [List.filter_cons_of_neg (by simp), hrest closed h hv]
        conv_rhs => rw [Adjacency.along, if_neg hcut, if_neg hne, if_pos (hv hrunning)]
        rw [ite_self]
      rw [List.filter_cons_of_pos (by simpa using hloop)]
      have htruncated : s.unlooped.truncated = s.truncated := rfl
      have hblocked : s.unlooped.blocked = s.blocked := rfl
      unfold Adjacency.along
      rw [htruncated, hblocked, if_neg hcut, if_neg hcut]
      by_cases hout : (!component.has next) = true
      · rw [if_pos hout, if_pos hout]
        exact hrest closed h hv
      have hin : component.has next = true := by simpa using hout
      rw [if_neg hout, if_neg hout]
      by_cases hstart : next = start
      · rw [if_pos hstart, if_pos hstart]
        exact hrest true (h.found limit path.reverse) fun _ => hv hrunning
      rw [if_neg hstart, if_neg hstart]
      by_cases hbarred : s.blocked.has next = true
      · rw [if_pos hbarred, if_pos hbarred]
        exact hrest closed h hv
      · rw [if_neg hbarred, if_neg hbarred]
        have hnext := hkeeps next s hin hbarred h
        rw [hdescend next s hin hbarred h]
        generalize descend next s = entered at hnext
        obtain ⟨answer, between⟩ := entered
        cases answer with
        | error reason => rfl
        | ok below =>
            exact hrest (closed || below) hnext.orderly fun hbetween =>
              hnext.blocked hbetween v (hv (hnext.running hbetween))

theorem circuit_unlooped {g : Adjacency} (hsize : ∀ v, component.has v = true → v < size)
    (hloop : start ∉ g.targets start) (room : Nat) (path : List Nat) {v : Nat}
    (hv : component.has v = true) (hfree : ¬s.blocked.has v = true) (h : s.Orderly size) :
    g.loopless.circuit component start limit room path v s.unlooped =
      (g.circuit component start limit room path v s).map id unlooped := by
  induction room generalizing path v s with
  | zero => rfl
  | succ room ih =>
      have hbudget : s.unlooped.budget = s.budget := rfl
      cases hcheck : s.budget.check with
      | some reason =>
          rw [circuit_refused hcheck, circuit_refused (hbudget ▸ hcheck)]
          rfl
      | none =>
          have hkeeps := fun next (s : CycleState) hnext hfree (hs : s.Orderly size) =>
            keeps_circuit component start limit g hsize room (v :: path) (v := next) hnext hfree hs
          have hfollowed := keeps_along component start limit hkeeps (v :: path) (g.targets v) false
            (h.block v)
          have hfirst : start ∈ g.targets v → start ≠ v := by
            rintro hmem rfl
            exact hloop hmem
          have halong := along_unlooped component start limit hkeeps
            (fun _ _ hnext hfree hs => ih (v :: path) hnext hfree hs) (v :: path) hfirst false
            (h.block v) fun _ => h.has_block (hsize v hv)
          rw [circuit_granted hcheck, circuit_granted (hbudget ▸ hcheck),
            unlooped_leave hfollowed.orderly.ascending, ← halong, Adjacency.targets_loopless,
            List.filter_comm]
          rfl

end

/-! ## The whole search -/

namespace Adjacency

variable {g : Adjacency}

/-- No node with a loop is the lowest one of a longer elementary cycle. -/
def HarmlessLoops (g : Adjacency) : Prop :=
  ∀ v x rest, v ∈ g.targets v → ¬g.IsCycle (v :: x :: rest)

theorem HarmlessLoops.not_mem_targets (h : g.HarmlessLoops) {start : Nat} (hstart : start < g.size)
    (hcount : ¬(g.component g.reverse start).count < 2) : start ∉ g.targets start := by
  intro hloop
  obtain ⟨x, rest, hcycle⟩ := exists_isCycle_of_count hstart (Nat.le_of_not_lt hcount)
  exact h start x rest hloop hcycle

theorem circuits_unlooped (h : g.HarmlessLoops) (maxLength limit : Nat) {starts : List Nat}
    (hstarts : starts ⊆ g.nodes) {s : CycleState} (hsize : s.blocked.size = g.size) :
    g.loopless.circuits g.loopless.reverse maxLength limit starts s.unlooped =
      (g.circuits g.reverse maxLength limit starts s).map id CycleState.unlooped := by
  induction starts generalizing s with
  | nil => rfl
  | cons start rest ih =>
      obtain ⟨hstart, hrest⟩ := List.cons_subset.mp hstarts
      have hlt : start < g.size := List.mem_range.mp hstart
      have hcomponent := encloses_component hlt
      unfold circuits
      dsimp only
      rw [component_loopless hlt]
      split
      · exact ih hrest hsize
      next hcount =>
        have hreset : s.reset.Orderly g.size := hsize ▸ s.orderly_reset
        have hkeeps := keeps_circuit (g.component g.reverse start) start limit g hcomponent.lt_size
          maxLength [] hcomponent.first (has_reset s start) hreset
        rw [← s.unlooped_reset, circuit_unlooped _ start limit hcomponent.lt_size
          (h.not_mem_targets hlt hcount) maxLength [] hcomponent.first (has_reset s start) hreset]
        generalize g.circuit (g.component g.reverse start) start limit maxLength [] start s.reset =
          entered at hkeeps
        obtain ⟨answer, after⟩ := entered
        cases answer with
        | error reason => rfl
        | ok closed =>
            have htruncated : after.unlooped.truncated = after.truncated := rfl
            dsimp only [Prod.map, id]
            rw [htruncated]
            split
            · rfl
            · exact ih hrest hkeeps.orderly.size_blocked

theorem searchCycles_loopless (h : g.HarmlessLoops) (maxLength maxCount : Nat) (budget : Budget) :
    g.searchCycles maxLength maxCount budget =
      g.loopless.searchCycles maxLength maxCount budget := by
  have hcircuits := circuits_unlooped h maxLength maxCount (List.Subset.refl g.nodes)
    (s := .start g.size budget) (Marks.size_none g.size)
  rw [CycleState.unlooped_start] at hcircuits
  unfold searchCycles
  split
  · rfl
  · dsimp only
    rw [nodes_loopless, size_loopless, hcircuits]
    rfl

/-- A loop at the lowest node of a longer cycle is found as a cycle of its own. -/
theorem mem_findCycles_of_loop {v x : Nat} {rest : List Nat} (hloop : v ∈ g.targets v)
    (hcycle : g.IsCycle (v :: x :: rest)) :
    ∃ maxLength maxCount, [v] ∈ (g.findCycles maxLength maxCount .unlimited).cycles := by
  have hv : v ∈ g.nodes := List.mem_range.mpr (lt_size_of_mem_targets hloop)
  have hmem : [v] ∈ g.nodes.flatMap (g.searched 2) := by
    refine List.mem_flatMap.mpr ⟨v, hv, ?_⟩
    rw [searched, if_neg (Nat.not_lt.mpr (two_le_count_of_isCycle hcycle))]
    exact mem_cyclesFrom.mpr ⟨[], .close hloop, Nat.zero_lt_two, rfl⟩
  refine ⟨2, (g.nodes.flatMap (g.searched 2)).length + 1, ?_⟩
  generalize hall : g.nodes.flatMap (g.searched 2) = all at hmem
  have hlists : Lists (all.length + 1) [] (.start g.size .unlimited) := by
    refine ⟨List.take_nil.symm, (decide_eq_false ?_).symm⟩
    exact Nat.not_succ_le_zero _
  obtain ⟨after, heq, hafter⟩ := circuits_searched g 2 (all.length + 1)
    (List.Subset.refl g.nodes) hlists (Budget.unhindered_of_never rfl rfl)
    (Marks.size_none g.size) rfl
  have hcycles : (g.findCycles 2 (all.length + 1) .unlimited).cycles = after.cycles.toList := by
    rw [findCycles, searchCycles, if_neg (by omega), heq]
  rw [hcycles, hafter.cycles, List.nil_append, hall, List.take_of_length_le (Nat.le_succ _)]
  exact hmem

/-- Loops are ignored by the search for cycles, whatever its bounds and its budget, just if none of
them is at the lowest node of a longer elementary cycle; and just then all that is found has two
nodes at least. -/
theorem findCycles_loopless (g : Adjacency) :
    (g.HarmlessLoops ↔ ∀ maxLength maxCount budget,
      g.findCycles maxLength maxCount budget = g.loopless.findCycles maxLength maxCount budget) ∧
    (g.HarmlessLoops ↔ ∀ maxLength maxCount budget,
      ∀ cycle ∈ (g.findCycles maxLength maxCount budget).cycles, 2 ≤ cycle.length) := by
  have hsame : g.HarmlessLoops → ∀ maxLength maxCount budget,
      g.findCycles maxLength maxCount budget =
        g.loopless.findCycles maxLength maxCount budget :=
    fun h maxLength maxCount budget =>
      congrArg Prod.fst (searchCycles_loopless h maxLength maxCount budget)
  have hlong : (∀ maxLength maxCount budget, g.findCycles maxLength maxCount budget =
      g.loopless.findCycles maxLength maxCount budget) → ∀ maxLength maxCount budget,
        ∀ cycle ∈ (g.findCycles maxLength maxCount budget).cycles, 2 ≤ cycle.length := by
    intro h maxLength maxCount budget cycle hcycle
    rw [h] at hcycle
    exact (isCycle_of_searchCycles (fun v _ => g.not_mem_targets_loopless v) hcycle).2.1
  have hharmless : (∀ maxLength maxCount budget,
      ∀ cycle ∈ (g.findCycles maxLength maxCount budget).cycles, 2 ≤ cycle.length) →
        g.HarmlessLoops := by
    intro h v x rest hloop hcycle
    obtain ⟨maxLength, maxCount, hmem⟩ := mem_findCycles_of_loop hloop hcycle
    exact absurd (h maxLength maxCount .unlimited [v] hmem) (by simp)
  exact ⟨⟨hsame, fun h => hharmless (hlong h)⟩, ⟨fun h => hlong (hsame h), hharmless⟩⟩

/-- The second node of a cycle has a loop. -/
example : (ofRows [[1], [0, 1]]).findCycles 8 256 .unlimited = ⟨[[0, 1]], false, none⟩ := by
  decide +kernel

/-- The first node of a cycle has a loop. -/
def loopAndBack : Adjacency := ofRows [[0, 1], [0]]

theorem findCycles_loopAndBack :
    loopAndBack.findCycles 8 256 .unlimited ≠ loopAndBack.loopless.findCycles 8 256 .unlimited ∧
      loopAndBack.findCycles 8 256 .unlimited = ⟨[[0], [0, 1]], false, none⟩ := by
  decide +kernel

end Adjacency

end Elenchus
