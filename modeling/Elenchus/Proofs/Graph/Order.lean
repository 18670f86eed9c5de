import Mathlib.Data.Set.Finite.Basic
import Mathlib.Logic.Relation
import Mathlib.Order.WellFounded
import Elenchus.Graph.Order
import Elenchus.Proofs.Graph.Stopped
import Elenchus.Proofs.Graph.Views

/-!
# The order of dependencies

A node may come next if all that it depends on is listed (`IsReady`).  The order is greedy: from a
state in which some nodes are listed, the lowest node that may come next is listed, until there is
none (`Greedy`).  The counts say how many dependencies are not listed yet (`Keeps`), and each step
takes them down one by one without going below zero (`Run`).

What a greedy order lists follows from its definition alone.  A node that is never ready has an
unlisted one before it, and that one has another; there are finitely many, so the way back comes to
a cycle (`mem_iff`).
-/

namespace Elenchus

open Relation (TransGen ReflTransGen)

theorem RelationshipKind.isDependency_of_isSupportChain (kind : RelationshipKind)
    (h : kind.isSupportChain = true) : kind.isDependency = true := by
  cases kind with
  | supports | dependsOn | assumes => rfl
  | contradicts | attacks => cases h

namespace ArgumentGraph

/-- A dependency leads from a node to another. -/
def Dependency (g : ArgumentGraph) (u v : Nat) : Prop :=
  ∃ e ∈ g.edges, e.kind.isDependency = true ∧ e.source = u ∧ e.target = v

/-- A node that may come next when some nodes are listed. -/
structure IsReady (g : ArgumentGraph) (listed : List Nat) (v : Nat) : Prop where
  lt_size : v < g.size
  new : v ∉ listed
  before : ∀ u, g.Dependency u v → u ∈ listed

/-- An order from some listed nodes on: the lowest of the nodes that may come next does so, until
there are none. -/
inductive Greedy (g : ArgumentGraph) : List Nat → List Nat → Prop
  | done {listed : List Nat} : (∀ v, ¬g.IsReady listed v) → Greedy g listed []
  | next {listed order : List Nat} {v : Nat} : g.IsReady listed v →
      (∀ w, g.IsReady listed w → v ≤ w) → Greedy g (listed ++ [v]) order →
      Greedy g listed (v :: order)

/-- Dependencies are taken off the counts one after another, each off a count that is not zero. -/
inductive Releases : OrderState → List Nat → OrderState → Prop
  | nil (s : OrderState) : Releases s [] s
  | cons {s t : OrderState} {w n : Nat} {targets : List Nat} : s.waiting[w]? = some (n + 1) →
      Releases (s.release w) targets t → Releases s (w :: targets) t

/-- A run from a state until nothing is ready. -/
inductive Run (g : ArgumentGraph) : OrderState → List Nat → Prop
  | stop {s : OrderState} : s.ready = [] → Run g s []
  | list {s t : OrderState} {v : Nat} {ready order : List Nat} : s.ready = v :: ready →
      Releases { s with ready } (g.dependencyTargets v) t → Run g t order → Run g s (v :: order)

variable {g : ArgumentGraph} {listed order : List Nat} {s : OrderState} {u v w : Nat}

/-! ## Greedy orders -/

theorem IsReady.nodup_concat (h : g.IsReady listed v) (hlisted : listed.Nodup) :
    (listed ++ [v]).Nodup := by
  refine List.nodup_append.mpr ⟨hlisted, List.nodup_singleton v, ?_⟩
  rintro x hx y hy rfl
  exact h.new (List.mem_singleton.mp hy ▸ hx)

theorem Greedy.step (h : g.Greedy listed order) {before after : List Nat}
    (horder : order = before ++ v :: after) :
    g.IsReady (listed ++ before) v ∧ ∀ w, g.IsReady (listed ++ before) w → v ≤ w := by
  induction h generalizing before with
  | done => cases before <;> cases horder
  | @next listed order x hready hleast _ ih =>
      cases before with
      | nil =>
          obtain ⟨rfl, rfl⟩ := List.cons.inj horder
          rw [List.append_nil]
          exact ⟨hready, hleast⟩
      | cons y before =>
          obtain ⟨rfl, hrest⟩ := List.cons.inj horder
          rw [List.append_cons]
          exact ih hrest

theorem Greedy.not_isReady (h : g.Greedy listed order) (v : Nat) :
    ¬g.IsReady (listed ++ order) v := by
  induction h with
  | done hnone =>
      rw [List.append_nil]
      exact hnone v
  | next _ _ _ ih =>
      rw [List.append_cons]
      exact ih

theorem Greedy.nodup (h : g.Greedy listed order) (hlisted : listed.Nodup) :
    (listed ++ order).Nodup := by
  induction h with
  | done => rwa [List.append_nil]
  | next hready _ _ ih =>
      rw [List.append_cons]
      exact ih (hready.nodup_concat hlisted)

section
variable (h : g.Greedy [] order)

include h

/-- What a listed node depends on is listed before it. -/
theorem Greedy.before (hdependency : g.Dependency u v) (hv : v ∈ order) :
    u ∈ order ∧ order.idxOf u < order.idxOf v := by
  obtain ⟨before, after, rfl⟩ := List.append_of_mem hv
  have hready := (h.step rfl).1
  rw [List.nil_append] at hready
  have hu := hready.before u hdependency
  refine ⟨List.mem_append_left _ hu, ?_⟩
  rw [List.idxOf_append_of_mem hu, List.idxOf_append_of_notMem hready.new, List.idxOf_cons_self]
  exact Nat.lt_of_lt_of_le (List.idxOf_lt_length_of_mem hu) (Nat.le_add_right _ _)

theorem Greedy.before_of_transGen (hway : TransGen g.Dependency u v) (hv : v ∈ order) :
    u ∈ order ∧ order.idxOf u < order.idxOf v := by
  induction hway using TransGen.head_induction_on with
  | single hdependency => exact h.before hdependency hv
  | head hdependency _ ih =>
      obtain ⟨hu, hlt⟩ := h.before hdependency ih.1
      exact ⟨hu, hlt.trans ih.2⟩

/-- What is not listed lies on a cycle of dependencies or behind one. -/
theorem Greedy.exists_cycle (hg : g.IsClosed) (hv : v < g.size) (hnot : v ∉ order) :
    ∃ u, TransGen g.Dependency u u ∧ ReflTransGen g.Dependency u v := by
  by_contra hnone
  -- The unlisted nodes from which a way leads to this one, by the ways between them.
  let Behind := {w : Nat // w < g.size ∧ w ∉ order ∧ ReflTransGen g.Dependency w v}
  let leads : Behind → Behind → Prop := fun w w' => TransGen g.Dependency w.1 w'.1
  have hfinite : Finite Behind :=
    ((Set.finite_lt_nat g.size).subset fun _ hw => hw.1).to_subtype
  have htrans : IsTrans Behind leads := ⟨fun _ _ _ hw hw' => hw.trans hw'⟩
  have hirrefl : Std.Irrefl leads := ⟨fun w hw => hnone ⟨w.1, hw, w.2.2.2⟩⟩
  have hfounded : WellFounded leads := Finite.wellFounded_of_trans_of_irrefl leads
  obtain ⟨⟨w, hw, hwnot, hway⟩, -, hmin⟩ :=
    hfounded.has_min Set.univ ⟨⟨v, hv, hnot, .refl⟩, Set.mem_univ _⟩
  -- The first of them is ready at the end, for what it depends on would come before it.
  refine h.not_isReady w ⟨hw, hwnot, fun u hdependency => ?_⟩
  by_contra hu
  obtain ⟨e, he, -, rfl, -⟩ := id hdependency
  exact hmin ⟨e.source, (hg e he).1, hu, .head hdependency hway⟩ (Set.mem_univ _)
    (.single hdependency)

theorem Greedy.mem_iff (hg : g.IsClosed) :
    v ∈ order ↔ v ∈ g.nodes ∧ ¬∃ u, TransGen g.Dependency u u ∧ ReflTransGen g.Dependency u v := by
  constructor
  · intro hv
    obtain ⟨before, after, horder⟩ := List.append_of_mem hv
    refine ⟨List.mem_range.mpr (h.step horder).1.lt_size, ?_⟩
    rintro ⟨u, hcycle, hway⟩
    have hu : u ∈ order := by
      rcases Relation.reflTransGen_iff_eq_or_transGen.mp hway with rfl | hway
      · exact hv
      · exact (h.before_of_transGen hway hv).1
    exact Nat.lt_irrefl _ (h.before_of_transGen hcycle hu).2
  · rintro ⟨hv, hnone⟩
    by_contra hnot
    exact hnone (h.exists_cycle hg (List.mem_range.mp hv) hnot)

end

/-! ## Counts -/

/-- The count of dependencies into a node from nodes that are not listed. -/
def pendingCount (g : ArgumentGraph) (listed : List Nat) (w : Nat) : Nat :=
  g.edges.countP fun e => e.kind.isDependency && e.target == w && decide (e.source ∉ listed)

theorem pendingCount_eq_zero_iff :
    g.pendingCount listed w = 0 ↔ ∀ u, g.Dependency u w → u ∈ listed := by
  rw [pendingCount, List.countP_eq_zero]
  simp only [Bool.and_eq_true, beq_iff_eq, decide_eq_true_eq, not_and, not_not]
  constructor
  · rintro h u ⟨e, he, hkind, rfl, rfl⟩
    exact h e he ⟨hkind, rfl⟩
  · rintro h e he ⟨hkind, rfl⟩
    exact h e.source ⟨e, he, hkind, rfl, rfl⟩

theorem pendingCount_nil (g : ArgumentGraph) (w : Nat) :
    g.pendingCount [] w = g.dependencyCount w := by
  rw [pendingCount, dependencyCount, entering, List.countP_filter]
  simp

theorem mem_dependencyTargets : w ∈ g.dependencyTargets v ↔ g.Dependency v w := by
  simp only [dependencyTargets, leaving, List.mem_map, List.mem_filter, beq_iff_eq, and_assoc,
    Dependency]
  exact exists_congr fun e => and_congr_right fun _ => by rw [and_left_comm]

/-- When a node is listed, the dependencies from it are taken off. -/
theorem pendingCount_concat (hv : v ∉ listed) :
    g.pendingCount listed w =
      g.pendingCount (listed ++ [v]) w + (g.dependencyTargets v).count w := by
  rw [pendingCount, List.countP_eq_countP_filter_add _ _ fun e => e.source == v, Nat.add_comm,
    pendingCount, dependencyTargets, leaving, List.count, List.countP_map, List.countP_filter,
    List.countP_filter, List.countP_filter, List.countP_filter]
  -- An edge from the node is taken off, any other one is pending after as before.
  congr 1
  · refine List.countP_congr fun e _ => ?_
    grind
  · refine List.countP_congr fun e _ => ?_
    grind

/-! ## Taking off dependencies -/

theorem getElem?_release {n : Nat} (hw : s.waiting[w]? = some (n + 1)) (v : Nat) :
    (s.release w).waiting[v]? = if v = w then some n else s.waiting[v]? := by
  rw [OrderState.release, Array.getElem?_modify]
  by_cases hvw : v = w
  · rw [if_pos hvw.symm, if_pos hvw, hvw, hw]
    rfl
  · rw [if_neg (Ne.symm hvw), if_neg hvw]

theorem mem_ready_release {n : Nat} (hw : s.waiting[w]? = some (n + 1)) :
    v ∈ (s.release w).ready ↔ v ∈ s.ready ∨ v = w ∧ n = 0 := by
  have hcount := getElem?_release hw w
  rw [if_pos rfl] at hcount
  show v ∈ (if (s.release w).waiting[w]? = some 0 then insertNat w s.ready else s.ready) ↔ _
  split
  next hzero =>
    obtain rfl := Option.some.inj (hcount.symm.trans hzero)
    rw [mem_insertNat, and_iff_left rfl, or_comm]
  next hsome =>
    refine (or_iff_left ?_).symm
    rintro ⟨_, rfl⟩
    exact hsome hcount

theorem pairwise_ready_release (h : s.ready.Pairwise (· < ·)) (w : Nat) :
    (s.release w).ready.Pairwise (· < ·) := by
  unfold OrderState.release
  dsimp only
  split
  · exact pairwise_insertNat h
  · exact h

/-- Dependencies into some targets are taken off: `left` is what remains of each count. -/
structure Released (n : Nat) (left : Nat → Nat) (targets : List Nat) (s t : OrderState) : Prop where
  releases : Releases s targets t
  waiting : ∀ w < n, t.waiting[w]? = some (left w)
  ready : ∀ v, v ∈ t.ready ↔ v ∈ s.ready ∨ v ∈ targets ∧ left v = 0
  ascending : s.ready.Pairwise (· < ·) → t.ready.Pairwise (· < ·)

theorem released {n : Nat} {left : Nat → Nat} {targets : List Nat}
    (htargets : ∀ w ∈ targets, w < n)
    (hs : ∀ w < n, s.waiting[w]? = some (left w + targets.count w)) :
    Released n left targets s (targets.foldl OrderState.release s) := by
  induction targets generalizing s with
  | nil => exact ⟨.nil s, hs, by simp, id⟩
  | cons x targets ih =>
      obtain ⟨hx, htargets⟩ := List.forall_mem_cons.mp htargets
      have hcount : s.waiting[x]? = some (left x + targets.count x + 1) := by
        rw [hs x hx, List.count_cons_self, Nat.add_assoc]
      have hrest := ih (s := s.release x) htargets fun w hw => by
        rw [getElem?_release hcount]
        split
        next heq => rw [heq]
        next hne => rw [hs w hw, List.count_cons_of_ne (Ne.symm hne)]
      refine ⟨.cons hcount hrest.releases, hrest.waiting, fun v => ?_, fun h =>
        hrest.ascending (pairwise_ready_release h x)⟩
      rw [List.foldl_cons, hrest.ready, mem_ready_release hcount, List.mem_cons, or_assoc]
      refine or_congr_right ?_
      -- The last of parallel edges brings the count down to what is left.
      constructor
      · rintro (⟨rfl, hzero⟩ | ⟨hmem, hzero⟩)
        · exact ⟨.inl rfl, Nat.eq_zero_of_add_eq_zero_right hzero⟩
        · exact ⟨.inr hmem, hzero⟩
      · rintro ⟨rfl | hmem, hzero⟩
        · by_cases hmem : v ∈ targets
          · exact .inr ⟨hmem, hzero⟩
          · exact .inl ⟨rfl, by rw [hzero, List.count_eq_zero_of_not_mem hmem]⟩
        · exact .inr ⟨hmem, hzero⟩

/-! ## The run -/

/-- The counts when some nodes are listed: what a listed node depends on is listed, and the counts
of the other dependencies say which nodes may come next. -/
structure Keeps (g : ArgumentGraph) (listed : List Nat) (s : OrderState) : Prop where
  nodup : listed.Nodup
  lt_size : ∀ v ∈ listed, v < g.size
  settled : ∀ v ∈ listed, ∀ u, g.Dependency u v → u ∈ listed
  waiting : ∀ w < g.size, s.waiting[w]? = some (g.pendingCount listed w)
  ready : ∀ v, v ∈ s.ready ↔ g.IsReady listed v
  ascending : s.ready.Pairwise (· < ·)

theorem keeps_orderStart (g : ArgumentGraph) : g.Keeps [] g.orderStart := by
  refine ⟨.nil, by simp, by simp, fun w hw => ?_, fun v => ?_, List.pairwise_lt_range.filter _⟩
  · rw [pendingCount_nil]
    simp [orderStart, nodes, hw]
  · rw [orderStart, List.mem_filter, decide_eq_true_eq, ← pendingCount_nil,
      pendingCount_eq_zero_iff, nodes, List.mem_range]
    exact ⟨fun h => ⟨h.1, List.not_mem_nil, h.2⟩, fun h => ⟨h.lt_size, h.before⟩⟩

theorem Keeps.isReady (h : g.Keeps listed s) {ready : List Nat} (hready : s.ready = v :: ready) :
    g.IsReady listed v := (h.ready v).mp (hready ▸ List.mem_cons_self)

theorem Keeps.lt_of_mem (h : g.Keeps listed s) {ready : List Nat} (hready : s.ready = v :: ready)
    (hw : w ∈ ready) : v < w := by
  have hascending := h.ascending
  rw [hready, List.pairwise_cons] at hascending
  exact hascending.1 w hw

/-- No dependency leads back to a node that is listed or is being listed. -/
theorem Keeps.not_mem_of_dependency (h : g.Keeps listed s) (hv : g.IsReady listed v)
    (hdependency : g.Dependency v w) : w ∉ listed ++ [v] := by
  intro hlisted
  rcases List.mem_append.mp hlisted with hlisted | hself
  · exact hv.new (h.settled w hlisted v hdependency)
  · obtain rfl := List.mem_singleton.mp hself
    exact hv.new (hv.before w hdependency)

/-- When a node is listed, those become ready that waited for nothing else. -/
theorem Keeps.isReady_concat_iff (hg : g.IsClosed) (h : g.Keeps listed s) {ready : List Nat}
    (hready : s.ready = v :: ready) :
    g.IsReady (listed ++ [v]) w ↔
      w ∈ ready ∨ g.Dependency v w ∧ ∀ u, g.Dependency u w → u ∈ listed ++ [v] := by
  constructor
  · intro hw
    by_cases hdependency : g.Dependency v w
    · exact .inr ⟨hdependency, hw.before⟩
    · have hbefore : g.IsReady listed w := by
        refine ⟨hw.lt_size, fun hlisted => hw.new (List.mem_append_left _ hlisted), ?_⟩
        intro u hu
        refine (List.mem_append.mp (hw.before u hu)).resolve_right fun hself => hdependency ?_
        exact List.mem_singleton.mp hself ▸ hu
      refine .inl ((List.mem_cons.mp (hready ▸ (h.ready w).mpr hbefore)).resolve_left ?_)
      rintro rfl
      exact hw.new (List.mem_append_right _ (List.mem_singleton_self w))
  · rintro (hw | ⟨hdependency, hbefore⟩)
    · have hbefore : g.IsReady listed w := (h.ready w).mp (hready ▸ List.mem_cons_of_mem v hw)
      refine ⟨hbefore.lt_size, ?_, fun u hu => List.mem_append_left _ (hbefore.before u hu)⟩
      intro hlisted
      rcases List.mem_append.mp hlisted with hlisted | hself
      · exact hbefore.new hlisted
      · exact Nat.ne_of_gt (h.lt_of_mem hready hw) (List.mem_singleton.mp hself)
    · obtain ⟨e, he, _, _, rfl⟩ := id hdependency
      exact ⟨(hg e he).2, h.not_mem_of_dependency (h.isReady hready) hdependency, hbefore⟩

/-- Listing the first of the nodes that are ready keeps the counts. -/
theorem Keeps.step (hg : g.IsClosed) (h : g.Keeps listed s) {ready : List Nat}
    (hready : s.ready = v :: ready) :
    Releases { s with ready } (g.dependencyTargets v)
        ((g.dependencyTargets v).foldl OrderState.release { s with ready }) ∧
      g.Keeps (listed ++ [v])
        ((g.dependencyTargets v).foldl OrderState.release { s with ready }) := by
  have hv := h.isReady hready
  have htargets : ∀ w ∈ g.dependencyTargets v, w < g.size := by
    intro w hw
    obtain ⟨e, he, _, _, rfl⟩ := mem_dependencyTargets.mp hw
    exact (hg e he).2
  have hreleased := released (s := { s with ready }) htargets fun w hw =>
    (h.waiting w hw).trans (congrArg some (pendingCount_concat hv.new))
  refine ⟨hreleased.releases, hv.nodup_concat h.nodup, ?_, ?_, hreleased.waiting, fun w => ?_,
    hreleased.ascending (List.Pairwise.of_cons (hready ▸ h.ascending))⟩
  · exact List.forall_mem_append.mpr ⟨h.lt_size, List.forall_mem_singleton.mpr hv.lt_size⟩
  · intro w hw u hdependency
    rcases List.mem_append.mp hw with hw | hw
    · exact List.mem_append_left _ (h.settled w hw u hdependency)
    · obtain rfl := List.mem_singleton.mp hw
      exact List.mem_append_left _ (hv.before u hdependency)
  · rw [hreleased.ready, pendingCount_eq_zero_iff, mem_dependencyTargets]
    exact (h.isReady_concat_iff hg hready).symm

theorem Keeps.run (hg : g.IsClosed) {fuel : Nat} (h : g.Keeps listed s)
    (hfuel : g.size ≤ fuel + listed.length) :
    g.Run s (g.orderFrom fuel s) ∧ g.Greedy listed (g.orderFrom fuel s) := by
  induction fuel generalizing listed s with
  | zero =>
      -- All nodes are listed, and none of them is ready.
      have hnone : ∀ v, ¬g.IsReady listed v := by
        intro v hv
        have hsubset : v :: listed ⊆ g.nodes := List.cons_subset.mpr
          ⟨List.mem_range.mpr hv.lt_size, fun w hw => List.mem_range.mpr (h.lt_size w hw)⟩
        have hlength :=
          (List.subperm_of_subset (List.nodup_cons.mpr ⟨hv.new, h.nodup⟩) hsubset).length_le
        rw [List.length_cons, nodes, List.length_range] at hlength
        omega
      have hready : s.ready = [] :=
        List.eq_nil_iff_forall_not_mem.mpr fun v hv => hnone v ((h.ready v).mp hv)
      exact ⟨.stop hready, .done hnone⟩
  | succ fuel ih =>
      unfold orderFrom
      split
      next hready =>
        refine ⟨.stop hready, .done fun v hv => ?_⟩
        have hmem := (h.ready v).mpr hv
        rw [hready] at hmem
        cases hmem
      next v ready hready =>
        obtain ⟨hreleases, hkeeps⟩ := h.step hg hready
        have hroom : g.size ≤ fuel + (listed ++ [v]).length := by
          rw [List.length_append, List.length_singleton]
          omega
        obtain ⟨hrun, hgreedy⟩ := ih hkeeps hroom
        refine ⟨.list hready hreleases hrun, .next (h.isReady hready) (fun w hw => ?_) hgreedy⟩
        rcases List.mem_cons.mp (hready ▸ (h.ready w).mpr hw) with rfl | hmem
        · exact Nat.le_refl w
        · exact Nat.le_of_lt (h.lt_of_mem hready hmem)

/-! ## The dependency order -/

theorem greedy_dependencyOrder (hg : g.IsClosed) : g.Greedy [] g.dependencyOrder :=
  ((keeps_orderStart g).run hg (Nat.le_refl _)).2

theorem run_dependencyOrder (hg : g.IsClosed) : g.Run g.orderStart g.dependencyOrder :=
  ((keeps_orderStart g).run hg (Nat.le_refl _)).1

/-- A cycle of reasons is a cycle of dependencies. -/
theorem transGen_of_isCycle {cycle : List Nat} (h : g.supportChain.IsCycle cycle) (hv : v ∈ cycle) :
    ∃ u, TransGen g.Dependency u u ∧ ReflTransGen g.Dependency u v := by
  obtain ⟨start, rest, rfl, hchain, -, -⟩ := h
  have hstep : ∀ v w, w ∈ g.supportChain.targets v → TransGen g.Dependency v w := by
    intro v w hw
    obtain ⟨-, e, he, hsource, htarget, hkind⟩ := exists_edge_of_mem_supportChain hw
    exact .single ⟨e, he, e.kind.isDependency_of_isSupportChain hkind, hsource, htarget⟩
  have hbehind := (List.pairwise_cons.mp (hchain.imp hstep).pairwise).1
  refine ⟨start, hbehind start (List.mem_append_right _ (List.mem_singleton_self start)), ?_⟩
  rcases List.mem_cons.mp hv with rfl | hv
  · exact .refl
  · exact (hbehind v (List.mem_append_left _ hv)).to_reflTransGen

end ArgumentGraph

/-- The order of dependencies is greedy, and it lists each node that is neither on a cycle of
dependencies nor behind one.  No count is taken below zero on the way.  Nothing that stands on a
cycle of reasons is listed. -/
theorem ArgumentGraph.dependencyOrder_spec (arg : Argument) :
    arg.graph.Run arg.graph.orderStart arg.graph.dependencyOrder ∧
    arg.graph.dependencyOrder.Nodup ∧
    (∀ v, v ∈ arg.graph.dependencyOrder ↔ v ∈ arg.graph.nodes ∧
      ¬∃ u, TransGen arg.graph.Dependency u u ∧ ReflTransGen arg.graph.Dependency u v) ∧
    (∀ u ∈ arg.graph.dependencyOrder, ∀ v ∈ arg.graph.dependencyOrder,
      arg.graph.Dependency u v →
        arg.graph.dependencyOrder.idxOf u < arg.graph.dependencyOrder.idxOf v) ∧
    (∀ before v after, arg.graph.dependencyOrder = before ++ v :: after →
      arg.graph.IsReady before v ∧ ∀ w, arg.graph.IsReady before w → v ≤ w) ∧
    ∀ maxLength maxCount budget,
      ∀ cycle ∈ (arg.graph.supportChain.findCycles maxLength maxCount budget).cycles,
        ∀ v ∈ cycle, v ∉ arg.graph.dependencyOrder := by
  have hclosed := arg.isClosed_graph
  have hgreedy := greedy_dependencyOrder hclosed
  refine ⟨run_dependencyOrder hclosed, hgreedy.nodup .nil, fun v => hgreedy.mem_iff hclosed,
    fun u _ v hv hdependency => (hgreedy.before hdependency hv).2,
    fun before v after horder => hgreedy.step horder, ?_⟩
  intro maxLength maxCount budget cycle hcycle v hv hlisted
  have hcycle := (Adjacency.isCycle_of_searchCycles supportChain_loops hcycle).1
  exact ((hgreedy.mem_iff hclosed).mp hlisted).2 (transGen_of_isCycle hcycle hv)

end Elenchus
