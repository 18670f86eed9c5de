import Mathlib.Data.List.Sort
import Elenchus.Fallacy.Rules
import Elenchus.Proofs.Graph.Order

/-!
# What parallel edges do not show in

Two graphs are alike if they have the same propositions and the same nodes are joined by edges of the
same kinds (`ArgumentGraph.Alike`); how many edges run in parallel, and in which order they come, may
differ.  The two are told apart neither by the chain of reasons nor by the evidence for a node, for
their rows are sets; nor by the order of dependencies, which is the only greedy one
(`Greedy.unique`), although it is counted out over all edges; nor by the nodes that depend on a node,
which are a matter of distances (`Adjacency.Alike.dependents_eq`), although parallel edges are
repeated in the rows that distances are found by.
-/

namespace Elenchus

theorem natSet_congr {ns ms : List Nat} (h : ∀ k, k ∈ ns ↔ k ∈ ms) : natSet ns = natSet ms := by
  refine List.Pairwise.eq_of_mem_iff (pairwise_natSet ns) (pairwise_natSet ms) fun k => ?_
  rw [mem_natSet, mem_natSet, h k]

/-! ## Rows with the same targets -/

namespace Adjacency

/-- Graphs of one size in which every node has the same targets, repeated or not. -/
structure Alike (g g' : Adjacency) : Prop where
  size_eq : g.size = g'.size
  mem_targets : ∀ v w, w ∈ g.targets v ↔ w ∈ g'.targets v

namespace Alike

variable {g g' : Adjacency} (h : g.Alike g') {u v w k : Nat}

theorem symm (h : g.Alike g') : g'.Alike g :=
  ⟨h.size_eq.symm, fun v w => (h.mem_targets v w).symm⟩

theorem walk (h : g.Alike g') (hwalk : g.Walk v k w) : g'.Walk v k w := by
  induction hwalk with
  | stay v => exact .stay v
  | step hw _ ih => exact .step ((h.mem_targets _ _).mp hw) ih

include h

theorem isDistance_iff : g.IsDistance v w k ↔ g'.IsDistance v w k := by
  constructor
  · intro hk
    exact ⟨h.walk hk.walk, fun j hj => hk.least j (h.symm.walk hj)⟩
  · intro hk
    exact ⟨h.symm.walk hk.walk, fun j hj => hk.least j (h.walk hj)⟩

theorem between_iff : g.Between u v w ↔ g'.Between u v w := by
  simp only [Between, h.isDistance_iff]

/-- The nodes that depend on a node are the same, for shortest ways are. -/
theorem dependents_eq (hg : g.IsUndirected) (hg' : g'.IsUndirected) (via : Nat) :
    g.dependents via = g'.dependents via := by
  refine List.Pairwise.eq_of_mem_iff (pairwise_dependents g via) (pairwise_dependents g' via) ?_
  intro v
  rw [mem_dependents hg, mem_dependents hg']
  simp only [nodes, h.size_eq, h.between_iff]

end Alike

end Adjacency

namespace ArgumentGraph

/-! ## The same links -/

/-- An edge of a kind leads from a node to another. -/
def Links (g : ArgumentGraph) (kind : RelationshipKind) (u v : Nat) : Prop :=
  ∃ e ∈ g.edges, e.kind = kind ∧ e.source = u ∧ e.target = v

/-- Graphs with the same propositions, in which edges of the same kinds join the same nodes. -/
structure Alike (g g' : ArgumentGraph) : Prop where
  propositions : g.argument.propositions = g'.argument.propositions
  links : ∀ kind u v, g.Links kind u v ↔ g'.Links kind u v

variable {g g' : ArgumentGraph} {u v w : Nat}

theorem dependency_iff_links :
    g.Dependency u v ↔ ∃ kind, kind.isDependency = true ∧ g.Links kind u v := by
  constructor
  · rintro ⟨e, he, hkind, hsource, htarget⟩
    exact ⟨e.kind, hkind, e, he, rfl, hsource, htarget⟩
  · rintro ⟨_, hkind, e, he, rfl, hsource, htarget⟩
    exact ⟨e, he, hkind, hsource, htarget⟩

theorem reason_iff_links :
    (∃ e ∈ g.edges, e.source = v ∧ e.target = w ∧ e.kind.isSupportChain = true) ↔
      ∃ kind, kind.isSupportChain = true ∧ g.Links kind v w := by
  constructor
  · rintro ⟨e, he, hsource, htarget, hkind⟩
    exact ⟨e.kind, hkind, e, he, rfl, hsource, htarget⟩
  · rintro ⟨_, hkind, e, he, rfl, hsource, htarget⟩
    exact ⟨e, he, hsource, htarget, hkind⟩

theorem mem_neighbours_iff :
    w ∈ g.neighbours v ↔ v ≠ w ∧ ∃ kind, g.Links kind v w ∨ g.Links kind w v := by
  simp only [neighbours, List.mem_filterMap, List.mem_filter, Edge.isLoop, Bool.not_eq_true',
    beq_eq_false_iff_ne]
  constructor
  · rintro ⟨e, ⟨he, hne⟩, hw⟩
    split at hw
    next hsource =>
      obtain rfl := Option.some.inj hw
      exact ⟨hsource ▸ hne, e.kind, .inl ⟨e, he, rfl, hsource, rfl⟩⟩
    next =>
      split at hw
      next htarget =>
        obtain rfl := Option.some.inj hw
        exact ⟨htarget ▸ hne.symm, e.kind, .inr ⟨e, he, rfl, rfl, htarget⟩⟩
      next => cases hw
  · rintro ⟨hne, _, ⟨e, he, _, rfl, rfl⟩ | ⟨e, he, _, rfl, rfl⟩⟩
    · exact ⟨e, ⟨he, hne⟩, if_pos rfl⟩
    · exact ⟨e, ⟨he, hne.symm⟩, by rw [if_neg hne.symm, if_pos rfl]⟩

theorem mem_evidence :
    u ∈ g.evidence v ↔ u ≠ v ∧ g.isKind .evidence u = true ∧ g.Links .supports u v := by
  rw [evidence, mem_predecessors]
  refine and_congr_right fun _ => ?_
  constructor
  · rintro ⟨e, he, rfl, rfl, hsort⟩
    simp only [Edge.isSupport, Bool.and_eq_true, beq_iff_eq] at hsort
    exact ⟨hsort.2, e, he, hsort.1, rfl, rfl⟩
  · rintro ⟨hkind, e, he, hsupports, rfl, rfl⟩
    exact ⟨e, he, rfl, rfl, by simp [Edge.isSupport, hsupports, hkind]⟩

/-- From the same listed nodes on there is one greedy order. -/
theorem Greedy.unique (hready : ∀ listed v, g.IsReady listed v ↔ g'.IsReady listed v)
    {listed order order' : List Nat} (h : g.Greedy listed order) (h' : g'.Greedy listed order') :
    order = order' := by
  induction h generalizing order' with
  | done hnone =>
      cases h' with
      | done => rfl
      | next hv => exact absurd ((hready _ _).mpr hv) (hnone _)
  | next hv hleast _ ih =>
      cases h' with
      | done hnone => exact absurd ((hready _ _).mp hv) (hnone _)
      | next hv' hleast' hrest =>
          obtain rfl := Nat.le_antisymm (hleast _ ((hready _ _).mpr hv'))
            (hleast' _ ((hready _ _).mp hv))
          rw [ih hrest]

/-! ## What does not tell them apart -/

namespace Alike

variable (h : g.Alike g')

include h

theorem size_eq : g.size = g'.size := congrArg List.length h.propositions

theorem proposition?_eq : g.proposition? = g'.proposition? := by
  funext v
  rw [proposition?, proposition?, h.propositions]

theorem dependency_iff : g.Dependency u v ↔ g'.Dependency u v := by
  simp only [dependency_iff_links, h.links]

theorem isReady_iff (listed : List Nat) (v : Nat) : g.IsReady listed v ↔ g'.IsReady listed v := by
  constructor
  · intro hv
    exact ⟨h.size_eq ▸ hv.lt_size, hv.new, fun u hu => hv.before u (h.dependency_iff.mpr hu)⟩
  · intro hv
    exact ⟨h.size_eq ▸ hv.lt_size, hv.new, fun u hu => hv.before u (h.dependency_iff.mp hu)⟩

theorem dependencyOrder_eq (hg : g.IsClosed) (hg' : g'.IsClosed) :
    g.dependencyOrder = g'.dependencyOrder :=
  Greedy.unique h.isReady_iff (greedy_dependencyOrder hg) (greedy_dependencyOrder hg')

theorem supportChain_eq : g.supportChain = g'.supportChain := by
  have hrow : ∀ v, natSet (((g.leaving v).filter fun e => e.kind.isSupportChain && !e.isLoop).map
      (·.target)) = natSet (((g'.leaving v).filter fun e =>
        e.kind.isSupportChain && !e.isLoop).map (·.target)) := by
    intro v
    refine natSet_congr fun w => ?_
    simp only [mem_reasons, reason_iff_links, h.links]
  rw [supportChain, supportChain, h.size_eq]
  exact congrArg _ (funext hrow)

theorem ids_eq : g.ids = g'.ids := by
  funext vs
  rw [ids, ids, h.proposition?_eq]

theorem label_eq : g.label = g'.label := by
  funext v
  rw [label, label, h.proposition?_eq]

theorem circularReasoning_eq (cycles : List (List Nat)) :
    g.circularReasoning cycles = g'.circularReasoning cycles := by
  unfold circularReasoning circularText quotedLabels
  rw [h.ids_eq, h.label_eq]

theorem evidence_eq : g.evidence = g'.evidence := by
  funext v
  refine List.Pairwise.eq_of_mem_iff (pairwise_natSet _) (pairwise_natSet _) fun u => ?_
  show u ∈ g.evidence v ↔ u ∈ g'.evidence v
  rw [mem_evidence, mem_evidence, h.links, isKind, isKind, h.proposition?_eq]

theorem hastyGeneralizations_eq : g.hastyGeneralizations = g'.hastyGeneralizations := by
  unfold hastyGeneralizations hastyClaims hastyText quotedLabels ArgumentGraph.propositions
  rw [h.propositions, h.evidence_eq, h.ids_eq, h.label_eq]

theorem alike_undirected : g.undirected.Alike g'.undirected := by
  have hsize : g.undirected.size = g'.undirected.size := by
    rw [size_undirected, size_undirected, h.size_eq]
  refine ⟨hsize, fun v w => ?_⟩
  by_cases hv : v < g.size
  · rw [undirected, undirected, Adjacency.targets_tabulate _ hv,
      Adjacency.targets_tabulate _ (h.size_eq ▸ hv), List.mem_mergeSort, List.mem_mergeSort]
    simp only [mem_neighbours_iff, h.links]
  · rw [Adjacency.targets_eq_nil (by rw [size_undirected]; omega),
      Adjacency.targets_eq_nil (by rw [size_undirected, ← h.size_eq]; omega)]

end Alike

end ArgumentGraph

end Elenchus
