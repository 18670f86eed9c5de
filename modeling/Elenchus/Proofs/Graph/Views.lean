import Mathlib.Data.List.Sort
import Elenchus.Graph.Basic
import Elenchus.Proofs.Argument.Validation
import Elenchus.Proofs.Graph.Distance

/-!
# What the views of a graph keep

The edges of an argument lie between its propositions (`Argument.isClosed_graph`), since a
relationship with an unknown end makes no edge.  So its undirected graph is undirected indeed: an
edge is in the row of either end, as often as edges run in parallel (`isUndirected_undirected`).
The nodes before a node are the other ends of the edges that enter it (`mem_predecessors`).  The
chain of reasons has no loops, and its rows ascend, as the search for cycles takes it.
-/

namespace Elenchus

/-- An edge lies between two nodes, in one direction or the other. -/
def Edge.joins (e : Edge) (v w : Nat) : Bool :=
  (e.source == v && e.target == w) || (e.source == w && e.target == v)

theorem Edge.joins_comm (e : Edge) (v w : Nat) : e.joins v w = e.joins w v := Bool.or_comm _ _

namespace ArgumentGraph

/-- All edges lie between nodes of the graph. -/
def IsClosed (g : ArgumentGraph) : Prop := ∀ e ∈ g.edges, e.source < g.size ∧ e.target < g.size

variable {g : ArgumentGraph} {v w : Nat}

/-! ## The undirected graph -/

theorem size_undirected (g : ArgumentGraph) : g.undirected.size = g.size :=
  Adjacency.size_tabulate _ _

theorem targets_undirected (hv : v < g.size) :
    g.undirected.targets v = (g.neighbours v).mergeSort := Adjacency.targets_tabulate _ hv

theorem targets_undirected_eq_nil (hv : g.size ≤ v) : g.undirected.targets v = [] :=
  Adjacency.targets_eq_nil (by rwa [size_undirected])

theorem pairwise_undirected (g : ArgumentGraph) (v : Nat) :
    (g.undirected.targets v).Pairwise (· ≤ ·) := by
  rcases Nat.lt_or_ge v g.size with hv | hv
  · rw [targets_undirected hv]
    exact List.pairwise_mergeSort' (· ≤ ·) _
  · rw [targets_undirected_eq_nil hv]
    exact .nil

theorem ne_of_mem_neighbours (h : w ∈ g.neighbours v) : v ≠ w := by
  rintro rfl
  obtain ⟨e, he, hv⟩ := List.mem_filterMap.mp h
  have hloop := (List.mem_filter.mp he).2
  grind [Edge.isLoop]

theorem ne_of_mem_undirected (h : w ∈ g.undirected.targets v) : v ≠ w := by
  have hv := Adjacency.lt_size_of_mem_targets h
  rw [size_undirected] at hv
  rw [targets_undirected hv, List.mem_mergeSort] at h
  exact ne_of_mem_neighbours h

theorem count_neighbours (hne : v ≠ w) :
    (g.neighbours v).count w = g.edges.countP (·.joins v w) := by
  rw [neighbours, List.count_filterMap, List.countP_filter]
  refine List.countP_congr fun e _ => ?_
  grind [Edge.joins, Edge.isLoop]

/-- A node is in the row of another as often as edges join them. -/
theorem count_undirected (hg : g.IsClosed) (hne : v ≠ w) :
    (g.undirected.targets v).count w = g.edges.countP (·.joins v w) := by
  rcases Nat.lt_or_ge v g.size with hv | hv
  · rw [targets_undirected hv, (List.mergeSort_perm _ _).count_eq, count_neighbours hne]
  · rw [targets_undirected_eq_nil hv, List.count_nil]
    refine (List.countP_eq_zero.mpr fun e he hjoins => ?_).symm
    obtain ⟨hsource, htarget⟩ := hg e he
    grind [Edge.joins]

theorem isUndirected_undirected (hg : g.IsClosed) : g.undirected.IsUndirected := by
  intro v _ w hmem
  have hne := ne_of_mem_undirected hmem
  rw [count_undirected hg hne, count_undirected hg hne.symm]
  exact List.countP_congr fun e _ => by rw [e.joins_comm]

/-! ## The nodes before a node -/

theorem mem_predecessors {sort : Edge → Bool} {u : Nat} :
    u ∈ g.predecessors sort v ↔
      u ≠ v ∧ ∃ e ∈ g.edges, e.source = u ∧ e.target = v ∧ sort e = true := by
  simp only [predecessors, mem_natSet, List.mem_map, entering, List.mem_filter, Edge.isLoop,
    Bool.and_eq_true, Bool.not_eq_true', beq_iff_eq, beq_eq_false_iff_ne]
  constructor
  · rintro ⟨e, ⟨⟨he, rfl⟩, hne, hsort⟩, rfl⟩
    exact ⟨hne, e, he, rfl, rfl, hsort⟩
  · rintro ⟨hne, e, he, rfl, rfl, hsort⟩
    exact ⟨e, ⟨⟨he, rfl⟩, hne, hsort⟩, rfl⟩

/-! ## The chain of reasons -/

theorem size_supportChain (g : ArgumentGraph) : g.supportChain.size = g.size :=
  Adjacency.size_tabulate _ _

/-- The row of a node in the chain of reasons, before it is made a set. -/
theorem mem_reasons :
    w ∈ ((g.leaving v).filter fun e => e.kind.isSupportChain && !e.isLoop).map (·.target) ↔
      v ≠ w ∧ ∃ e ∈ g.edges, e.source = v ∧ e.target = w ∧ e.kind.isSupportChain = true := by
  simp only [List.mem_map, leaving, List.mem_filter, Edge.isLoop, Bool.and_eq_true,
    Bool.not_eq_true', beq_iff_eq, beq_eq_false_iff_ne]
  constructor
  · rintro ⟨e, ⟨⟨he, rfl⟩, hkind, hne⟩, rfl⟩
    exact ⟨hne, e, he, rfl, rfl, hkind⟩
  · rintro ⟨hne, e, he, rfl, rfl, hkind⟩
    exact ⟨e, ⟨⟨he, rfl⟩, hkind, hne⟩, rfl⟩

theorem mem_supportChain (hv : v < g.size) :
    w ∈ g.supportChain.targets v ↔
      v ≠ w ∧ ∃ e ∈ g.edges, e.source = v ∧ e.target = w ∧ e.kind.isSupportChain = true := by
  rw [supportChain, Adjacency.targets_tabulate _ hv, mem_natSet, mem_reasons]

/-- A step along the chain of reasons is an edge to another node. -/
theorem exists_edge_of_mem_supportChain (h : w ∈ g.supportChain.targets v) :
    v ≠ w ∧ ∃ e ∈ g.edges, e.source = v ∧ e.target = w ∧ e.kind.isSupportChain = true := by
  have hv := Adjacency.lt_size_of_mem_targets h
  rw [size_supportChain] at hv
  exact (mem_supportChain hv).mp h

theorem supportChain_loops : ∀ v ∈ g.supportChain.nodes, v ∉ g.supportChain.targets v :=
  fun _ _ hmem => (exists_edge_of_mem_supportChain hmem).1 rfl

theorem pairwise_supportChain : ∀ row ∈ g.supportChain.toRows, row.Pairwise (· < ·) := by
  intro row hrow
  rw [supportChain, Adjacency.tabulate, Adjacency.ofRows, Adjacency.toRows] at hrow
  obtain ⟨v, _, rfl⟩ := List.mem_map.mp hrow
  exact pairwise_natSet _

end ArgumentGraph

/-- A relationship makes an edge only if both its ends are propositions of the argument. -/
theorem Argument.isClosed_graph (arg : Argument) : arg.graph.IsClosed := by
  intro e he
  obtain ⟨⟨r, i⟩, _, hedge⟩ := List.mem_filterMap.mp he
  obtain ⟨source, hsource, hedge⟩ := Option.bind_eq_some_iff.mp hedge
  obtain ⟨target, htarget, hedge⟩ := Option.bind_eq_some_iff.mp hedge
  cases hedge
  exact ⟨arg.lt_size_of_indexOf? hsource, arg.lt_size_of_indexOf? htarget⟩

end Elenchus
