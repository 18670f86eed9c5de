import Elenchus.Proofs.Graph.Elementary
import Elenchus.Proofs.Graph.Views

/-!
# A graph says what its argument says

In a validated argument every relationship joins two of the propositions, so each makes an edge, and
the edges are the relationships in their order (`Argument.edges_graph`).  The positions of the edges
are put into the rows of their ends in one go.  In the end the row of a node holds the positions of
the edges that end there (`ArgumentGraph.positionRows_eq`), each edge once and in no other row, and
the edges that leave the node, or enter it, are read off its row (`ArgumentGraph.Files`).

The views deal with parallel edges, edges in opposite directions and loops each in its own way:
predecessors and the chain of reasons are sets without loops, the undirected graph has a node as
often as edges join it, and no loops either.  `ArgumentGraph.Represents` puts down what all of them
say of one list of edges.
-/

namespace Elenchus

/-! ## Positions -/

/-- Reading a list at the positions of its members with a property gives these members. -/
theorem filterMap_findIdxs {α : Type} (before xs : List α) (p : α → Bool) :
    (xs.findIdxs p before.length).filterMap ((before ++ xs)[·]?) = xs.filter p := by
  induction xs generalizing before with
  | nil => rfl
  | cons x xs ih =>
      have hrest := ih (before ++ [x])
      rw [List.length_append, List.length_singleton, List.append_assoc, List.singleton_append]
        at hrest
      have hfirst : (before ++ x :: xs)[before.length]? = some x := by simp
      rw [List.findIdxs_cons, List.filter_cons]
      split
      · rw [List.filterMap_cons_some hfirst, hrest]
      · exact hrest

/-! ## Edges -/

/-- An edge that says what a relationship at some position of an argument says. -/
structure Edge.Represents (e : Edge) (arg : Argument) (position : Nat) (r : Relationship) :
    Prop where
  source : arg.propositions[e.source]?.map (·.id) = some r.fromId
  target : arg.propositions[e.target]?.map (·.id) = some r.toId
  kind : e.kind = r.kind
  strength : e.strength = r.strength
  relationship : e.relationship = position

namespace Argument

variable {arg : Argument}

theorem represents_of_edge? {r : Relationship} {i : Nat} {e : Edge} (h : arg.edge? r i = some e) :
    e.Represents arg i r := by
  obtain ⟨source, hsource, h⟩ := Option.bind_eq_some_iff.mp h
  obtain ⟨target, htarget, h⟩ := Option.bind_eq_some_iff.mp h
  cases h
  obtain ⟨p, hp, hid⟩ := getElem?_of_indexOf? hsource
  obtain ⟨q, hq, hid'⟩ := getElem?_of_indexOf? htarget
  exact ⟨by simp [hp, hid], by simp [hq, hid'], rfl, rfl, rfl⟩

section
variable (hjoined : ∀ r ∈ arg.relationships, r.fromId ∈ arg.ids ∧ r.toId ∈ arg.ids)
include hjoined

/-- No relationship goes without an edge. -/
theorem edges_graph :
    arg.graph.edges.map some = arg.relationships.zipIdx.map fun (r, i) => arg.edge? r i := by
  rw [graph, List.map_filterMap_some_eq_filter_map_isSome, List.filter_eq_self]
  intro edge hedge
  obtain ⟨⟨r, i⟩, hr, rfl⟩ := List.mem_map.mp hedge
  obtain ⟨hfrom, hto⟩ := hjoined r (List.fst_mem_of_mem_zipIdx hr)
  obtain ⟨source, hsource⟩ := exists_indexOf? hfrom
  obtain ⟨target, htarget⟩ := exists_indexOf? hto
  simp [edge?, hsource, htarget]

theorem length_edges_graph : arg.graph.edges.length = arg.relationships.length := by
  simpa using congrArg List.length (edges_graph hjoined)

theorem exists_relationship {i : Nat} {e : Edge} (he : arg.graph.edges[i]? = some e) :
    ∃ r, arg.relationships[i]? = some r ∧ e.Represents arg i r := by
  have hedges := congrArg (·[i]?) (edges_graph hjoined)
  simp only [List.getElem?_map, he, List.getElem?_zipIdx, Option.map_some, Option.map_map] at hedges
  obtain ⟨r, hr, hedge⟩ := Option.map_eq_some_iff.mp hedges.symm
  rw [Function.comp_apply, Nat.zero_add] at hedge
  exact ⟨r, hr, represents_of_edge? hedge⟩

end

end Argument

namespace ArgumentGraph

/-! ## Rows of positions -/

/-- More edges put their positions, which begin at `i`, behind those in the rows. -/
theorem getElem?_foldl_modify (endOf : Edge → Nat) (edges : List Edge) (i : Nat)
    (rows : Array (List Nat)) (v : Nat) :
    ((edges.zipIdx i).foldl (fun rows (e, i) => rows.modify (endOf e) (· ++ [i])) rows)[v]? =
      rows[v]?.map (· ++ edges.findIdxs (endOf · == v) i) := by
  induction edges generalizing i rows with
  | nil => simp
  | cons e edges ih =>
      rw [List.zipIdx_cons, List.foldl_cons, ih, Array.getElem?_modify, List.findIdxs_cons]
      by_cases hv : endOf e = v
      · rw [if_pos hv, if_pos (beq_iff_eq.mpr hv), Option.map_map]
        simp [Function.comp_def]
      · rw [if_neg hv, if_neg (mt beq_iff_eq.mp hv)]

/-- Rows that have each edge, by its position, once in the row of one of its ends and nowhere else,
and ascend; the edges at a node are read off its row. -/
structure Files (g : ArgumentGraph) (endOf : Edge → Nat) (row : Nat → List Nat)
    (edgesAt : Nat → List Edge) : Prop where
  once {i : Nat} {e : Edge} : g.edges[i]? = some e → (row (endOf e)).count i = 1
  only {i v : Nat} : i ∈ row v → ∃ e, g.edges[i]? = some e ∧ endOf e = v
  ascending (v : Nat) : (row v).Pairwise (· < ·)
  read (v : Nat) : edgesAt v = (row v).filterMap (g.edges[·]?)

section
variable {g : ArgumentGraph} {endOf : Edge → Nat}

/-- The row of a node holds the positions of the edges that end there. -/
theorem positionRows_eq (hends : ∀ e ∈ g.edges, endOf e < g.size) (v : Nat) :
    (g.positionRows endOf)[v]?.getD [] = g.edges.findIdxs (endOf · == v) := by
  rw [positionRows, getElem?_foldl_modify, Array.getElem?_replicate]
  by_cases hv : v < g.size
  · rw [if_pos hv]
    rfl
  · rw [if_neg hv]
    refine (List.findIdxs_eq_nil_iff.mpr fun e he => ?_).symm
    have hlt := hends e he
    exact beq_eq_false_iff_ne.mpr (by omega)

theorem files_positionRows (hends : ∀ e ∈ g.edges, endOf e < g.size) :
    g.Files endOf (fun v => (g.positionRows endOf)[v]?.getD [])
      (fun v => g.edges.filter (endOf · == v)) where
  once := by
    intro i e he
    obtain ⟨hi, rfl⟩ := List.getElem?_eq_some_iff.mp he
    rw [positionRows_eq hends, List.nodup_findIdxs.count, if_pos]
    exact List.mem_findIdxs_iff_exists_getElem_pos.mpr ⟨hi, beq_self_eq_true _⟩
  only := by
    intro i v hmem
    rw [positionRows_eq hends] at hmem
    obtain ⟨hi, hend⟩ := List.mem_findIdxs_iff_exists_getElem_pos.mp hmem
    exact ⟨_, List.getElem?_eq_getElem hi, beq_iff_eq.mp hend⟩
  ascending v := by
    rw [positionRows_eq hends]
    exact List.pairwise_findIdxs
  read v := by
    rw [positionRows_eq hends]
    exact (filterMap_findIdxs [] g.edges _).symm

end

/-! ## The views together -/

/-- The rows list other nodes, ascending and each once: those to which a support or a dependency
leads. -/
structure ListsReasons (g : ArgumentGraph) (chain : Adjacency) : Prop where
  size_eq : chain.size = g.size
  ascending (v : Nat) : (chain.targets v).Pairwise (· < ·)
  mem_iff (v w : Nat) : w ∈ chain.targets v ↔ v ≠ w ∧
    ∃ e ∈ g.edges, e.source = v ∧ e.target = w ∧ (e.kind = .supports ∨ e.kind = .dependsOn)

/-- The rows list other nodes, ascending and each as often as edges join it, in either direction. -/
structure ListsJoined (g : ArgumentGraph) (joined : Adjacency) : Prop where
  size_eq : joined.size = g.size
  ascending (v : Nat) : (joined.targets v).Pairwise (· ≤ ·)
  not_mem_self (v : Nat) : v ∉ joined.targets v
  count_eq {v w : Nat} : v ≠ w → (joined.targets v).count w = g.edges.countP (·.joins v w)
  count_comm (v w : Nat) : (joined.targets v).count w = (joined.targets w).count v

/-- A graph has an edge for each relationship of an argument, at the same place, and its views are
of these edges. -/
structure Represents (g : ArgumentGraph) (arg : Argument) : Prop where
  argument_eq : g.argument = arg
  length_eq : g.edges.length = arg.relationships.length
  edge {i : Nat} {e : Edge} : g.edges[i]? = some e →
    ∃ r, arg.relationships[i]? = some r ∧ e.Represents arg i r
  outgoing : g.Files Edge.source g.outgoing g.leaving
  incoming : g.Files Edge.target g.incoming g.entering
  predecessors (sort : Edge → Bool) (v : Nat) : (g.predecessors sort v).Pairwise (· < ·) ∧
    ∀ u, u ∈ g.predecessors sort v ↔
      u ≠ v ∧ ∃ e ∈ g.edges, e.source = u ∧ e.target = v ∧ sort e = true
  supportChain : g.ListsReasons g.supportChain
  undirected : g.ListsJoined g.undirected

variable {g : ArgumentGraph}

theorem listsReasons_supportChain (hg : g.IsClosed) : g.ListsReasons g.supportChain where
  size_eq := size_supportChain g
  ascending := Adjacency.pairwise_targets pairwise_supportChain
  mem_iff v w := by
    have hkind : ∀ kind : RelationshipKind,
        kind.isSupportChain = true ↔ kind = .supports ∨ kind = .dependsOn := by
      intro kind
      cases kind <;> decide
    simp only [← hkind]
    refine ⟨exists_edge_of_mem_supportChain, fun h => (mem_supportChain ?_).mpr h⟩
    obtain ⟨_, e, he, rfl, _⟩ := h
    exact (hg e he).1

theorem listsJoined_undirected (hg : g.IsClosed) : g.ListsJoined g.undirected where
  size_eq := size_undirected g
  ascending := pairwise_undirected g
  not_mem_self _ hmem := ne_of_mem_undirected hmem rfl
  count_eq := count_undirected hg
  count_comm v w := ((isUndirected_undirected hg).count_eq v w).symm

end ArgumentGraph

/-- The graph of a validated argument loses none of its relationships, and all its views are of the
same edges. -/
theorem Request.represents_graph (request : Request) :
    request.validate.1.graph.Represents request.validate.1 := by
  have hclosed := request.validate.1.isClosed_graph
  have hjoined : ∀ r ∈ request.validate.1.relationships,
      r.fromId ∈ request.validate.1.ids ∧ r.toId ∈ request.validate.1.ids :=
    fun _ hr => request.mem_ids_of_relationship hr
  exact {
    argument_eq := rfl
    length_eq := Argument.length_edges_graph hjoined
    edge := Argument.exists_relationship hjoined
    outgoing := ArgumentGraph.files_positionRows fun e he => (hclosed e he).1
    incoming := ArgumentGraph.files_positionRows fun e he => (hclosed e he).2
    predecessors := fun _ _ => ⟨pairwise_natSet _, fun _ => ArgumentGraph.mem_predecessors⟩
    supportChain := ArgumentGraph.listsReasons_supportChain hclosed
    undirected := ArgumentGraph.listsJoined_undirected hclosed }

end Elenchus
