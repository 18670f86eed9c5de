import Elenchus.Graph.Component
import Elenchus.Proofs.Graph.Elementary

/-!
# Components hold the cycles

All cycles that start at a node are in its component (`encloses_component`): it has the node itself,
no node below it, and with each of its nodes the next nodes of all ways back.  So a component
without a second node starts no cycle, a loop apart.

A sweep ends with marks that are closed under edges (`Closed`): whatever a marked node leads to is
marked, nodes below the least one apart.  While it goes on, only the pending nodes are excepted from
that.  For the way back the same sweep goes over the graph with its edges turned round.
-/

namespace Elenchus.Adjacency

variable {g : Adjacency} {least : Nat}

/-! ## Sweeping -/

/-- Marked nodes lead to marked nodes only, the pending ones and targets below the least node
apart. -/
def Closed (g : Adjacency) (least : Nat) (pending : List Nat) (marks : Marks) : Prop :=
  ∀ v, marks.has v = true → v ∉ pending →
    ∀ w ∈ g.targets v, least ≤ w → w < marks.size → marks.has w = true

/-- What meeting some nodes in turn does: they are marked, what was pending still is, and what is
newly marked is pending. -/
structure Met (least : Nat) (nodes : List Nat) (before after : List Nat × Marks) : Prop where
  size_eq : after.2.size = before.2.size
  keeps : ∀ v, before.2.has v = true → after.2.has v = true
  pends : ∀ v ∈ before.1, v ∈ after.1
  fresh : ∀ v, after.2.has v = true → before.2.has v = true ∨ least ≤ v ∧ v ∈ after.1
  meets : ∀ w ∈ nodes, least ≤ w → w < before.2.size → after.2.has w = true

theorem met_discover (least : Nat) (front : List Nat × Marks) (w : Nat) :
    Met least [w] front (discover least front w) := by
  unfold discover
  split
  next hnew =>
    refine ⟨Marks.size_mark _ _, fun v hv => Marks.has_mark.mpr (.inr hv),
      fun v hv => List.mem_cons_of_mem w hv, fun v hv => ?_, ?_⟩
    · rcases Marks.has_mark.mp hv with ⟨rfl, _⟩ | hold
      · exact .inr ⟨hnew.1, List.mem_cons_self⟩
      · exact .inl hold
    · exact List.forall_mem_singleton.mpr fun _ hlt => Marks.has_mark.mpr (.inl ⟨rfl, hlt⟩)
  next hold =>
    refine ⟨rfl, fun _ hv => hv, fun _ hv => hv, fun _ hv => .inl hv, ?_⟩
    refine List.forall_mem_singleton.mpr fun hle hlt => ?_
    exact eq_true_of_ne_false fun hfree => hold ⟨hle, hlt, hfree⟩

theorem Met.trans {nodes nodes' : List Nat} {before between after : List Nat × Marks}
    (h : Met least nodes before between) (h' : Met least nodes' between after) :
    Met least (nodes ++ nodes') before after := by
  refine ⟨h'.size_eq.trans h.size_eq, fun v hv => h'.keeps v (h.keeps v hv),
    fun v hv => h'.pends v (h.pends v hv), fun v hv => ?_, fun w hw hle hlt => ?_⟩
  · rcases h'.fresh v hv with hold | hnew
    · exact (h.fresh v hold).imp_right fun hnew => ⟨hnew.1, h'.pends v hnew.2⟩
    · exact .inr hnew
  · rcases List.mem_append.mp hw with hw | hw
    · exact h'.keeps w (h.meets w hw hle hlt)
    · exact h'.meets w hw hle (h.size_eq ▸ hlt)

theorem met_explore (g : Adjacency) (least v : Nat) (front : List Nat × Marks) :
    Met least (g.targets v) front (g.explore least v front) := by
  unfold explore
  induction g.targets v generalizing front with
  | nil =>
      exact ⟨rfl, fun _ hv => hv, fun _ hv => hv, fun _ hv => .inl hv, List.forall_mem_nil _⟩
  | cons w ws ih => exact (met_discover least front w).trans (ih _)

/-- What a sweep ends with: the marks grow, stay above the least node, and are closed. -/
theorem sweep_spec {pending : List Nat} {marks : Marks} (hclosed : g.Closed least pending marks)
    (hleast : ∀ v, marks.has v = true → least ≤ v) :
    (g.sweep least pending marks).size = marks.size ∧
      (∀ v, marks.has v = true → (g.sweep least pending marks).has v = true) ∧
      (∀ v, (g.sweep least pending marks).has v = true → least ≤ v) ∧
      g.Closed least [] (g.sweep least pending marks) := by
  induction pending, marks using sweep.induct g least with
  | case1 marks =>
      rw [sweep]
      exact ⟨rfl, fun _ hv => hv, hleast, hclosed⟩
  | case2 v pending marks front ih =>
      have hmet : Met least (g.targets v) (pending, marks) front :=
        met_explore g least v (pending, marks)
      have hfront : g.Closed least front.1 front.2 := by
        intro u hu hpending w hw hle hlt
        rw [hmet.size_eq] at hlt
        rcases hmet.fresh u hu with hold | ⟨_, hmem⟩
        · by_cases hv : u = v
          · exact hmet.meets w (hv ▸ hw) hle hlt
          · refine hmet.keeps w (hclosed u hold ?_ w hw hle hlt)
            rw [List.mem_cons, not_or]
            exact ⟨hv, fun hmem => hpending (hmet.pends u hmem)⟩
        · exact absurd hmem hpending
      have hfrontLeast : ∀ u, front.2.has u = true → least ≤ u := by
        intro u hu
        rcases hmet.fresh u hu with hold | ⟨hle, _⟩
        · exact hleast u hold
        · exact hle
      obtain ⟨hsize, hkeeps, habove, hdone⟩ := ih hfront hfrontLeast
      rw [sweep]
      exact ⟨hsize.trans hmet.size_eq, fun u hu => hkeeps u (hmet.keeps u hu), habove, hdone⟩

/-- What a node leads to: the node itself, nothing below it, and with each node its targets. -/
theorem reached_spec {start : Nat} (hstart : start < g.size) :
    (g.reached start).size = g.size ∧ (g.reached start).has start = true ∧
      (∀ v, (g.reached start).has v = true → start ≤ v) ∧ g.Closed start [] (g.reached start) := by
  have honly : ∀ v, ((Marks.none g.size).mark start).has v = true → v = start := by
    intro v hv
    rcases Marks.has_mark.mp hv with ⟨heq, _⟩ | hnone
    · exact heq
    · rw [Marks.has_none] at hnone
      cases hnone
  have hmark : ((Marks.none g.size).mark start).has start = true :=
    Marks.has_mark.mpr (.inl ⟨rfl, by rwa [Marks.size_none]⟩)
  have honlyStart : g.Closed start [start] ((Marks.none g.size).mark start) :=
    fun v hv hpending => absurd (List.mem_singleton.mpr (honly v hv)) hpending
  obtain ⟨hsize, hkeeps, habove, hclosed⟩ :=
    sweep_spec honlyStart fun v hv => Nat.le_of_eq (honly v hv).symm
  refine ⟨?_, hkeeps start hmark, habove, hclosed⟩
  rw [reached, hsize, Marks.size_mark, Marks.size_none]

/-! ## Components -/

theorem mem_targets_reverse {v w : Nat} (hv : v < g.size) :
    w ∈ g.reverse.targets v ↔ w ≠ v ∧ v ∈ g.targets w := by
  rw [reverse, targets_tabulate _ hv, List.mem_filter, Bool.and_eq_true, decide_eq_true_eq,
    decide_eq_true_eq]
  exact and_iff_right_of_imp fun h => List.mem_range.mpr (lt_size_of_mem_targets h.2)

theorem size_reverse (g : Adjacency) : g.reverse.size = g.size := size_tabulate _ _

variable {start : Nat}

/-- A node with a way back leads to the first node. -/
theorem reached_of_wayBack (hstart : start < g.size) {path rest : List Nat} {v : Nat}
    (h : g.WayBack start path v rest) (hlt : start < v) :
    (g.reverse.reached start).has v = true := by
  have hstart' : start < g.reverse.size := by rwa [size_reverse]
  obtain ⟨hsize, hmark, habove, hclosed⟩ := reached_spec hstart'
  -- The sweep over the reversed graph goes from a target to its source.
  have hback : ∀ u w, w ∈ g.targets u → u ≠ w → start ≤ u →
      (g.reverse.reached start).has w = true → (g.reverse.reached start).has u = true := by
    intro u w hmem hne hle hw
    have hwsize : w < g.size := by
      rw [← size_reverse g, ← hsize]
      exact Marks.lt_size_of_has hw
    refine hclosed w hw List.not_mem_nil u ((mem_targets_reverse hwsize).mpr ⟨hne, hmem⟩) hle ?_
    rw [hsize, size_reverse]
    exact lt_size_of_mem_targets hmem
  induction h with
  | close hmem => exact hback _ start hmem (Nat.ne_of_gt hlt) (Nat.le_of_lt hlt) hmark
  | step hmem hgt hnew _ ih =>
      refine hback _ _ hmem (fun heq => hnew (heq ▸ List.mem_cons_self)) (Nat.le_of_lt hlt) (ih hgt)

/-- Nodes among which all ways back to the first node can be searched for: the first node, nothing
below it, and with a node each next node of a way back. -/
structure Encloses (g : Adjacency) (start : Nat) (component : Marks) : Prop where
  first : component.has start = true
  le : ∀ v, component.has v = true → start ≤ v
  lt_size : ∀ v, component.has v = true → v < g.size
  next : ∀ v w path rest, component.has v = true → w ∈ g.targets v → start < w →
    g.WayBack start path w rest → component.has w = true

theorem encloses_component (hstart : start < g.size) :
    g.Encloses start (g.component g.reverse start) := by
  obtain ⟨hsize, hmark, hleast, hclosed⟩ := reached_spec hstart
  have hmark' : (g.reverse.reached start).has start = true :=
    (reached_spec (g := g.reverse) (by rwa [size_reverse])).2.1
  refine ⟨Marks.has_meet.mpr ⟨hmark, hmark'⟩, fun v hv => hleast v (Marks.has_meet.mp hv).1,
    fun v hv => ?_, fun v w path rest hv hmem hlt hway => ?_⟩
  · rw [← hsize]
    exact Marks.lt_size_of_has (Marks.has_meet.mp hv).1
  · refine Marks.has_meet.mpr ⟨?_, reached_of_wayBack hstart hway hlt⟩
    refine hclosed v (Marks.has_meet.mp hv).1 List.not_mem_nil w hmem (Nat.le_of_lt hlt) ?_
    rw [hsize]
    exact hway.lt_size

/-- Without a second node in the component there is nothing to list, loops apart. -/
theorem cyclesFrom_eq_nil_of_count {component : Marks} (hcomponent : g.Encloses start component)
    (hloop : start ∉ g.targets start) (hcount : component.count < 2) (room : Nat) :
    g.cyclesFrom start room [] start = [] := by
  refine cyclesFrom_eq_nil fun rest hway => ?_
  cases hway with
  | close hmem => exact hloop hmem
  | step hmem hlt _ hway =>
      have hnext := hcomponent.next _ _ _ _ hcomponent.first hmem hlt hway
      exact Nat.not_le_of_lt hcount
        (Marks.two_le_count (Nat.ne_of_lt hlt) hcomponent.first hnext)

end Elenchus.Adjacency
