import Mathlib.Data.List.Chain
import Elenchus.Proofs.Graph.Component

/-!
# Components and loops

A loop plays no part in what a node leads to, and so none in components: they are the same in the
graph without its loops (`component_loopless`).  A sweep meets a loop when it goes through its node,
and this is marked by then.

If a component has a second node, its first node is the lowest one of a longer elementary cycle
(`exists_isCycle_of_count`).  What a sweep marks is handed on along edges (`sweep_forall`): so some
way leads back from the second node, and as the first node leads to it, then also from a target of
the first node.  Conversely the nodes of a cycle are in the component of its first node.
-/

namespace Elenchus

namespace Marks

theorem exists_has {m : Marks} (h : 0 < m.count) : ∃ v, m.has v = true := by
  obtain ⟨v, hv, hbit⟩ := Array.getElem_of_mem (Array.count_pos_iff.mp h)
  refine ⟨v, ?_⟩
  rw [has, Array.getD_eq_getD_getElem?, Array.getElem?_eq_getElem hv, hbit]
  rfl

theorem exists_other {m : Marks} (h : 2 ≤ m.count) (v : Nat) : ∃ w, w ≠ v ∧ m.has w = true := by
  by_cases hv : m.has v = true
  · have hrest := count_unmark hv
    obtain ⟨w, hw⟩ := exists_has (m := m.unmark v) (by omega)
    exact ⟨w, has_unmark.mp hw⟩
  · obtain ⟨w, hw⟩ := exists_has (m := m) (by omega)
    refine ⟨w, ?_, hw⟩
    rintro rfl
    exact hv hw

end Marks

namespace Adjacency

variable {g : Adjacency} {start least : Nat}

/-! ## The graph without its loops -/

/-- The graph with its other edges, in the same order. -/
def loopless (g : Adjacency) : Adjacency :=
  tabulate g.size fun v => (g.targets v).filter (· ≠ v)

@[simp] theorem size_loopless (g : Adjacency) : g.loopless.size = g.size := size_tabulate _ _

@[simp] theorem nodes_loopless (g : Adjacency) : g.loopless.nodes = g.nodes := by
  simp [nodes]

@[simp] theorem targets_loopless (g : Adjacency) (v : Nat) :
    g.loopless.targets v = (g.targets v).filter (· ≠ v) := by
  by_cases hv : v < g.size
  · exact targets_tabulate _ hv
  · rw [targets_eq_nil (g := g.loopless) (by simp; omega), targets_eq_nil (g := g) (by omega)]
    rfl

theorem not_mem_targets_loopless (g : Adjacency) (v : Nat) : v ∉ g.loopless.targets v := by
  simp

theorem reverse_loopless (g : Adjacency) : g.loopless.reverse = g.reverse := by
  have hrow : ∀ v, (g.nodes.filter fun w => w ≠ v && v ∈ g.loopless.targets w) =
      g.nodes.filter fun w => w ≠ v && v ∈ g.targets w := by
    intro v
    refine List.filter_congr fun w _ => ?_
    by_cases hne : w = v
    · simp [hne]
    · simp [hne, Ne.symm hne]
  rw [reverse, reverse, nodes_loopless, size_loopless]
  exact congrArg _ (funext hrow)

/-! ## Sweeping without the loops -/

/-- A node that is marked already is met to no effect. -/
theorem explore_loopless {v : Nat} {front : List Nat × Marks} (h : front.2.has v = true) :
    g.loopless.explore least v front = g.explore least v front := by
  rw [explore, explore, targets_loopless]
  induction g.targets v generalizing front with
  | nil => rfl
  | cons w ws ih =>
      by_cases hw : w = v
      · subst hw
        have hsame : discover least front w = front := by
          rw [discover, if_neg]
          rintro ⟨_, _, hfree⟩
          rw [h] at hfree
          cases hfree
        rw [List.filter_cons_of_neg (by simp), List.foldl_cons, hsame]
        exact ih h
      · rw [List.filter_cons_of_pos (by simpa using hw), List.foldl_cons, List.foldl_cons]
        exact ih ((met_discover least front w).keeps v h)

/-- Whatever is pending is marked. -/
theorem marked_explore {v : Nat} {front : List Nat × Marks}
    (h : ∀ u ∈ front.1, front.2.has u = true) :
    ∀ u ∈ (g.explore least v front).1, (g.explore least v front).2.has u = true := by
  unfold explore
  induction g.targets v generalizing front with
  | nil => exact h
  | cons w ws ih =>
      refine ih ?_
      unfold discover
      split
      next hnew =>
        refine List.forall_mem_cons.mpr ⟨Marks.has_mark.mpr (.inl ⟨rfl, hnew.2.1⟩), ?_⟩
        exact fun u hu => Marks.has_mark.mpr (.inr (h u hu))
      next => exact h

/-- A pending node is marked, so its loop is met to no effect. -/
theorem sweep_loopless {pending : List Nat} {marks : Marks}
    (h : ∀ v ∈ pending, marks.has v = true) :
    g.loopless.sweep least pending marks = g.sweep least pending marks := by
  induction pending, marks using sweep.induct g least with
  | case1 marks => rw [sweep, sweep]
  | case2 v pending marks front ih =>
      obtain ⟨hv, hpending⟩ := List.forall_mem_cons.mp h
      rw [sweep, sweep, explore_loopless hv]
      exact ih (marked_explore hpending)

theorem reached_loopless (hstart : start < g.size) : g.loopless.reached start = g.reached start := by
  rw [reached, reached, size_loopless]
  refine sweep_loopless (List.forall_mem_singleton.mpr ?_)
  exact Marks.has_mark.mpr (.inl ⟨rfl, by rwa [Marks.size_none]⟩)

theorem component_loopless (hstart : start < g.size) :
    g.loopless.component g.loopless.reverse start = g.component g.reverse start := by
  rw [component, component, reverse_loopless, reached_loopless hstart]

/-! ## What a sweep marks -/

/-- What holds of the pending and the marked nodes, and is handed on along edges, holds of all nodes
that are met. -/
theorem forall_explore {P : Nat → Prop} {v : Nat}
    (htargets : ∀ w ∈ g.targets v, least ≤ w → P w) {front : List Nat × Marks}
    (hpending : ∀ u ∈ front.1, P u) (hmarks : ∀ u, front.2.has u = true → P u) :
    (∀ u ∈ (g.explore least v front).1, P u) ∧
      ∀ u, (g.explore least v front).2.has u = true → P u := by
  unfold explore
  generalize g.targets v = targets at htargets
  induction targets generalizing front with
  | nil => exact ⟨hpending, hmarks⟩
  | cons w ws ih =>
      obtain ⟨hw, hws⟩ := List.forall_mem_cons.mp htargets
      rw [List.foldl_cons]
      unfold discover
      split
      next hnew =>
        refine ih (List.forall_mem_cons.mpr ⟨hw hnew.1, hpending⟩) (fun u hu => ?_) hws
        rcases Marks.has_mark.mp hu with ⟨rfl, _⟩ | hold
        · exact hw hnew.1
        · exact hmarks u hold
      next => exact ih hpending hmarks hws

/-- What is handed on along edges to nodes that are not below the least one holds of all nodes that a
sweep marks. -/
theorem sweep_forall {P : Nat → Prop} (hstep : ∀ u, P u → ∀ w ∈ g.targets u, least ≤ w → P w)
    {pending : List Nat} {marks : Marks} (hpending : ∀ u ∈ pending, P u)
    (hmarks : ∀ u, marks.has u = true → P u) :
    ∀ u, (g.sweep least pending marks).has u = true → P u := by
  induction pending, marks using sweep.induct g least with
  | case1 marks =>
      rw [sweep]
      exact hmarks
  | case2 v pending marks front ih =>
      obtain ⟨hv, hpending⟩ := List.forall_mem_cons.mp hpending
      obtain ⟨hfront, hmarked⟩ : (∀ u ∈ front.1, P u) ∧ ∀ u, front.2.has u = true → P u :=
        forall_explore (hstep v hv) hpending hmarks
      rw [sweep]
      exact ih hfront hmarked

/-- What holds of the first node and is handed on so holds of all that it leads to. -/
theorem reached_forall {P : Nat → Prop} (hstep : ∀ u, P u → ∀ w ∈ g.targets u, start ≤ w → P w)
    (hstart : P start) : ∀ u, (g.reached start).has u = true → P u := by
  refine sweep_forall hstep (List.forall_mem_singleton.mpr hstart) fun u hu => ?_
  rcases Marks.has_mark.mp hu with ⟨rfl, _⟩ | hnone
  · exact hstart
  · simp at hnone

/-! ## Cycles in components -/

/-- Some way leads back from a node to the first one, over nodes above it. -/
def Returns (g : Adjacency) (start v : Nat) : Prop := ∃ rest, g.WayBack start [] v rest

/-- From each node of a way back the rest of it is one. -/
theorem returns_of_mem {x u : Nat} {rest : List Nat} (h : g.WayBack start [] x rest)
    (hmem : u ∈ rest) : g.Returns start u := by
  obtain ⟨before, after, rfl⟩ := List.append_of_mem hmem
  obtain ⟨hchain, hall, hnodup⟩ := wayBack_iff.mp h
  obtain ⟨hnew, hnodup⟩ := List.nodup_cons.mp (List.nodup_append.mp hnodup).2.1
  have hsuffix : u :: (after ++ [start]) <:+ x :: (before ++ u :: after ++ [start]) :=
    ⟨x :: before, by simp⟩
  refine ⟨after, wayBack_iff.mpr ⟨hchain.suffix hsuffix, fun w hw => ?_, hnodup⟩⟩
  refine ⟨(hall w (by simp [hw])).1, ?_⟩
  rw [List.mem_singleton]
  rintro rfl
  exact hnew hw

/-- A node with a target from which some way leads back has one itself. -/
theorem Returns.of_target {u x : Nat} (h : g.Returns start x) (hmem : x ∈ g.targets u)
    (hlt : start < x) : g.Returns start u := by
  obtain ⟨rest, hway⟩ := h
  by_cases hmet : u ∈ x :: rest
  · -- The way back from the target goes on from the node.
    rcases List.mem_cons.mp hmet with rfl | hmet
    · exact ⟨rest, hway⟩
    · exact returns_of_mem hway hmet
  · obtain ⟨hchain, hall, hnodup⟩ := wayBack_iff.mp hway
    have hnew : ∀ w ∈ x :: rest, w ∉ [u] := by
      intro w hw hmem
      exact hmet (List.mem_singleton.mp hmem ▸ hw)
    have habove : ∀ w ∈ x :: rest, start < w :=
      List.forall_mem_cons.mpr ⟨hlt, fun w hw => (hall w hw).1⟩
    refine ⟨x :: rest, wayBack_iff.mpr ⟨List.isChain_cons_cons.mpr ⟨hmem, hchain⟩,
      fun w hw => ⟨habove w hw, hnew w hw⟩, ?_⟩⟩
    exact List.nodup_cons.mpr ⟨fun hx => (hall x hx).2 List.mem_cons_self, hnodup⟩

/-- An edge to a node above the first one from which some way leads back closes a cycle. -/
theorem Returns.exists_isCycle {x : Nat} (h : g.Returns start x) (hmem : x ∈ g.targets start)
    (hlt : start < x) : ∃ rest, g.IsCycle (start :: x :: rest) := by
  obtain ⟨rest, hway⟩ := h
  obtain ⟨hchain, hall, hnodup⟩ := wayBack_iff.mp hway
  have habove : ∀ v ∈ x :: rest, start < v :=
    List.forall_mem_cons.mpr ⟨hlt, fun v hv => (hall v hv).1⟩
  refine ⟨rest, start, x :: rest, rfl, List.isChain_cons_cons.mpr ⟨hmem, hchain⟩, ?_, habove⟩
  refine List.nodup_cons.mpr ⟨fun hstart => Nat.lt_irrefl start (habove start hstart), ?_⟩
  exact List.nodup_cons.mpr ⟨fun hx => (hall x hx).2 List.mem_cons_self, hnodup⟩

/-- What leads to the first node over nodes above it has a way back. -/
theorem returns_of_reached (hstart : start < g.size) {v : Nat}
    (h : (g.reverse.reached start).has v = true) (hne : v ≠ start) :
    start < v ∧ g.Returns start v := by
  have hall : ∀ u, (g.reverse.reached start).has u = true →
      u < g.size ∧ (u = start ∨ start < u ∧ g.Returns start u) := by
    refine reached_forall (fun u hu w hw hle => ?_) ⟨hstart, .inl rfl⟩
    obtain ⟨hsize, hreturns⟩ := hu
    obtain ⟨_, hmem⟩ := (mem_targets_reverse hsize).mp hw
    refine ⟨lt_size_of_mem_targets hmem, ?_⟩
    by_cases hw : w = start
    · exact .inl hw
    refine .inr ⟨by omega, ?_⟩
    rcases hreturns with rfl | ⟨hlt, hreturns⟩
    · exact ⟨[], .close hmem⟩
    · exact hreturns.of_target hmem hlt
  exact (hall v h).2.resolve_left hne

/-- If some way leads back from a node that the first node leads to, then also from a target of the
first node. -/
theorem exists_target_of_reached {v : Nat} (h : (g.reached start).has v = true)
    (hlt : start < v) (hreturns : g.Returns start v) :
    ∃ x ∈ g.targets start, start < x ∧ g.Returns start x := by
  have hall : ∀ u, (g.reached start).has u = true →
      start ≤ u ∧ (start < u → g.Returns start u →
        ∃ x ∈ g.targets start, start < x ∧ g.Returns start x) := by
    refine reached_forall (fun u hu w hw hle => ⟨hle, fun hlt hreturns => ?_⟩)
      ⟨Nat.le_refl start, fun hlt => absurd hlt (Nat.lt_irrefl start)⟩
    rcases Nat.eq_or_lt_of_le hu.1 with rfl | hlt'
    · exact ⟨w, hw, hlt, hreturns⟩
    · exact hu.2 hlt' (hreturns.of_target hw hlt)
  exact (hall v h).2 hlt hreturns

/-- The first node of a component with a second node is the lowest of a longer cycle. -/
theorem exists_isCycle_of_count (hstart : start < g.size)
    (h : 2 ≤ (g.component g.reverse start).count) :
    ∃ x rest, g.IsCycle (start :: x :: rest) := by
  obtain ⟨v, hne, hv⟩ := Marks.exists_other h start
  obtain ⟨hforth, hback⟩ := Marks.has_meet.mp hv
  obtain ⟨hlt, hreturns⟩ := returns_of_reached hstart hback hne
  obtain ⟨x, hmem, hlt, hreturns⟩ := exists_target_of_reached hforth hlt hreturns
  obtain ⟨rest, hcycle⟩ := hreturns.exists_isCycle hmem hlt
  exact ⟨x, rest, hcycle⟩

/-- The lowest node of a longer cycle is not alone in its component. -/
theorem two_le_count_of_isCycle {x : Nat} {rest : List Nat} (h : g.IsCycle (start :: x :: rest)) :
    2 ≤ (g.component g.reverse start).count := by
  obtain ⟨_, _, heq, hchain, hnodup, hall⟩ := h
  obtain ⟨rfl, rfl⟩ := List.cons_eq_cons.mp heq
  obtain ⟨hlt, hrest⟩ := List.forall_mem_cons.mp hall
  obtain ⟨hmem, hchain⟩ := List.isChain_cons_cons.mp hchain
  obtain ⟨hx, hnodup⟩ := List.nodup_cons.mp (List.nodup_cons.mp hnodup).2
  have hway : g.WayBack start [] x rest := by
    refine wayBack_iff.mpr ⟨hchain, fun w hw => ⟨hrest w hw, ?_⟩, hnodup⟩
    rw [List.mem_singleton]
    rintro rfl
    exact hx hw
  have hcomponent := encloses_component (lt_size_of_mem_targets hmem)
  exact Marks.two_le_count (Nat.ne_of_lt hlt) hcomponent.first
    (hcomponent.next start x [] rest hcomponent.first hmem hlt hway)

end Adjacency

end Elenchus
