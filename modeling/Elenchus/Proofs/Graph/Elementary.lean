import Mathlib.Data.List.Defs
import Elenchus.Graph.Adjacency

/-!
# Elementary cycles

An elementary cycle meets no node twice, and it is written from its lowest node
(`Adjacency.IsCycle`). `Adjacency.listing` lists those of a bounded length in the plainest way: from
every first node each path is extended along the rows of targets, over nodes above the first one
that are not on it yet.

In a graph without loops the list has the elementary cycles of two nodes at least, and nothing else
(`mem_listing`).  If the rows of targets ascend, so does the list, in the lexicographic order
(`pairwise_listing`); so it has no repetitions.

The list is the measure for any search for cycles.  A search may leave out a node from which no path
leads back to the first one (`WayBack`), for then nothing is listed.
-/

namespace Elenchus.Adjacency

variable {g : Adjacency} {start : Nat}

/-- The nodes of an elementary cycle in turn, from the lowest one on. -/
def IsCycle (g : Adjacency) (cycle : List Nat) : Prop :=
  ∃ start rest, cycle = start :: rest ∧
    (start :: (rest ++ [start])).IsChain (fun v w => w ∈ g.targets v) ∧
    (start :: rest).Nodup ∧ ∀ v ∈ rest, start < v

/-! ## Ways back -/

/-- The nodes that lead from a node back to the first one, over nodes above it.  No node is met
twice, nor is one of the path that leads to the node. -/
inductive WayBack (g : Adjacency) (start : Nat) : List Nat → Nat → List Nat → Prop
  | close {path : List Nat} {v : Nat} : start ∈ g.targets v → WayBack g start path v []
  | step {path rest : List Nat} {v w : Nat} : w ∈ g.targets v → start < w → w ∉ v :: path →
      WayBack g start (v :: path) w rest → WayBack g start path v (w :: rest)

theorem WayBack.lt_size {path rest : List Nat} {v : Nat} (h : g.WayBack start path v rest) :
    v < g.size := by
  cases h with
  | close hmem => exact lt_size_of_mem_targets hmem
  | step hmem _ _ _ => exact lt_size_of_mem_targets hmem

theorem wayBack_iff {path rest : List Nat} {v : Nat} :
    g.WayBack start path v rest ↔
      (v :: (rest ++ [start])).IsChain (fun v w => w ∈ g.targets v) ∧
        (∀ w ∈ rest, start < w ∧ w ∉ v :: path) ∧ rest.Nodup := by
  induction rest generalizing path v with
  | nil =>
      rw [List.nil_append, List.isChain_cons_cons]
      constructor
      · rintro ⟨hmem⟩
        exact ⟨⟨hmem, .singleton start⟩, List.forall_mem_nil _, List.nodup_nil⟩
      · exact fun h => .close h.1.1
  | cons w rest ih =>
      rw [List.cons_append, List.isChain_cons_cons, List.forall_mem_cons, List.nodup_cons]
      constructor
      · intro h
        cases h with
        | step hmem hlt hnew hrest =>
            obtain ⟨hchain, hall, hnodup⟩ := ih.mp hrest
            refine ⟨⟨hmem, hchain⟩, ⟨⟨hlt, hnew⟩, fun u hu => ?_⟩, fun hw => ?_, hnodup⟩
            · exact ⟨(hall u hu).1, fun hmem => (hall u hu).2 (List.mem_cons_of_mem w hmem)⟩
            · exact (hall w hw).2 List.mem_cons_self
      · rintro ⟨⟨hmem, hchain⟩, ⟨⟨hlt, hnew⟩, hall⟩, hw, hnodup⟩
        refine .step hmem hlt hnew (ih.mpr ⟨hchain, fun u hu => ⟨(hall u hu).1, ?_⟩, hnodup⟩)
        rw [List.mem_cons, not_or]
        exact ⟨fun heq => hw (heq ▸ hu), (hall u hu).2⟩

/-! ## The listing -/

/-- The cycles that extend a path, written from its end, by at most `room` nodes, of which the first
is given. -/
def cyclesFrom (g : Adjacency) (start : Nat) :
    (room : Nat) → (path : List Nat) → (v : Nat) → List (List Nat)
  | 0, _, _ => []
  | room + 1, path, v =>
    (g.targets v).flatMap fun next =>
      if next = start then [(v :: path).reverse]
      else if start < next ∧ next ∉ v :: path then g.cyclesFrom start room (v :: path) next
      else []

/-- The cycles that go on from a path to one target of its end. -/
def branch (g : Adjacency) (start room : Nat) (path : List Nat) (next : Nat) : List (List Nat) :=
  if next = start then [path.reverse]
  else if start < next ∧ next ∉ path then g.cyclesFrom start room path next
  else []

theorem cyclesFrom_succ (g : Adjacency) (start room : Nat) (path : List Nat) (v : Nat) :
    g.cyclesFrom start (room + 1) path v =
      (g.targets v).flatMap (g.branch start room (v :: path)) := rfl

/-- All elementary cycles of at most `maxLength` nodes. -/
def listing (g : Adjacency) (maxLength : Nat) : List (List Nat) :=
  g.nodes.flatMap fun start => g.cyclesFrom start maxLength [] start

/-- What extends a path are the ways back from the next node. -/
theorem mem_cyclesFrom {room : Nat} {path cycle : List Nat} {v : Nat} :
    cycle ∈ g.cyclesFrom start room path v ↔
      ∃ rest, g.WayBack start path v rest ∧ rest.length < room ∧
        cycle = path.reverse ++ v :: rest := by
  induction room generalizing path v with
  | zero =>
      constructor
      · exact fun h => absurd h List.not_mem_nil
      · rintro ⟨rest, _, hlt, _⟩
        exact absurd hlt (Nat.not_lt_zero _)
  | succ room ih =>
      rw [cyclesFrom_succ, List.mem_flatMap]
      constructor
      · rintro ⟨next, hmem, hcycle⟩
        unfold branch at hcycle
        split at hcycle
        next heq =>
          rw [List.mem_singleton.mp hcycle, List.reverse_cons]
          exact ⟨[], .close (heq ▸ hmem), Nat.zero_lt_succ _, rfl⟩
        next hne =>
          split at hcycle
          next hnext =>
            obtain ⟨rest, hway, hlt, rfl⟩ := ih.mp hcycle
            refine ⟨next :: rest, .step hmem hnext.1 hnext.2 hway, Nat.succ_lt_succ hlt, ?_⟩
            rw [List.reverse_cons, List.append_assoc, List.singleton_append]
          next => cases hcycle
      · rintro ⟨rest, hway, hlt, rfl⟩
        cases hway with
        | close hmem =>
            refine ⟨start, hmem, ?_⟩
            rw [branch, if_pos rfl, List.reverse_cons, List.mem_singleton]
        | @step _ rest _ w hmem hgt hnew hway =>
            refine ⟨w, hmem, ?_⟩
            rw [branch, if_neg (Nat.ne_of_gt hgt), if_pos ⟨hgt, hnew⟩, ih]
            refine ⟨rest, hway, Nat.lt_of_succ_lt_succ hlt, ?_⟩
            rw [List.reverse_cons, List.append_assoc, List.singleton_append]

/-- Where there is no way back, nothing is listed. -/
theorem cyclesFrom_eq_nil {room : Nat} {path : List Nat} {v : Nat}
    (h : ∀ rest, ¬g.WayBack start path v rest) : g.cyclesFrom start room path v = [] := by
  refine List.eq_nil_iff_forall_not_mem.mpr fun cycle hcycle => ?_
  obtain ⟨rest, hway, _⟩ := mem_cyclesFrom.mp hcycle
  exact h rest hway

/-- In a graph without loops all elementary cycles of two nodes at least are listed, up to the
length, and nothing else is. -/
theorem mem_listing (hloops : ∀ v ∈ g.nodes, v ∉ g.targets v) {maxLength : Nat}
    {cycle : List Nat} :
    cycle ∈ g.listing maxLength ↔
      g.IsCycle cycle ∧ 2 ≤ cycle.length ∧ cycle.length ≤ maxLength := by
  rw [listing, List.mem_flatMap]
  constructor
  · rintro ⟨start, hstart, hcycle⟩
    obtain ⟨rest, hway, hlt, rfl⟩ := mem_cyclesFrom.mp hcycle
    obtain ⟨hchain, hall, hnodup⟩ := wayBack_iff.mp hway
    refine ⟨⟨start, rest, rfl, hchain, List.nodup_cons.mpr ⟨fun hmem => ?_, hnodup⟩, ?_⟩, ?_, hlt⟩
    · exact Nat.lt_irrefl start (hall start hmem).1
    · exact fun v hv => (hall v hv).1
    · cases hway with
      | close hmem => exact absurd hmem (hloops start hstart)
      | step _ _ _ _ => exact Nat.le_add_left 2 _
  · rintro ⟨⟨start, rest, rfl, hchain, hnodup, hall⟩, _, hlt⟩
    have hway : g.WayBack start [] start rest := by
      refine wayBack_iff.mpr ⟨hchain, fun v hv => ⟨hall v hv, ?_⟩, (List.nodup_cons.mp hnodup).2⟩
      rw [List.mem_singleton]
      exact Nat.ne_of_gt (hall v hv)
    exact ⟨start, List.mem_range.mpr hway.lt_size, mem_cyclesFrom.mpr ⟨rest, hway, hlt, rfl⟩⟩

/-! ## The order of the listing -/

theorem pairwise_targets (hrows : ∀ row ∈ g.toRows, row.Pairwise (· < ·)) (v : Nat) :
    (g.targets v).Pairwise (· < ·) := by
  unfold targets
  cases hrow : g.rows[v]? with
  | none => exact .nil
  | some row => exact hrows row (Array.mem_toList_iff.mpr (Array.mem_of_getElem? hrow))

/-- What goes on to a target is the path itself, closed, or has the target after the path. -/
theorem eq_of_mem_branch {room next : Nat} {path cycle : List Nat}
    (h : cycle ∈ g.branch start room path next) :
    (next = start ∧ cycle = path.reverse) ∨
      start < next ∧ ∃ rest, cycle = path.reverse ++ next :: rest := by
  unfold branch at h
  split at h
  next heq => exact .inl ⟨heq, List.mem_singleton.mp h⟩
  next hne =>
    split at h
    next hnext =>
      obtain ⟨rest, _, _, heq⟩ := mem_cyclesFrom.mp h
      exact .inr ⟨hnext.1, rest, heq⟩
    next => cases h

/-- What goes on to a lower target comes first. -/
theorem lt_of_mem_branch {room next next' : Nat} {path cycle cycle' : List Nat}
    (hlt : next < next') (h : cycle ∈ g.branch start room path next)
    (h' : cycle' ∈ g.branch start room path next') : cycle < cycle' := by
  rcases eq_of_mem_branch h' with ⟨heq', _⟩ | ⟨_, rest', rfl⟩
  · rcases eq_of_mem_branch h with ⟨heq, _⟩ | ⟨hgt, _⟩ <;> omega
  · rcases eq_of_mem_branch h with ⟨_, rfl⟩ | ⟨_, rest, rfl⟩
    · have hlonger : path.reverse ++ [] < path.reverse ++ next' :: rest' :=
        List.append_left_lt (List.nil_lt_cons next' rest')
      rwa [List.append_nil] at hlonger
    · exact List.append_left_lt (List.cons_lt_cons_iff.mpr (.inl hlt))

theorem pairwise_cyclesFrom (hrows : ∀ row ∈ g.toRows, row.Pairwise (· < ·)) (start room : Nat)
    (path : List Nat) (v : Nat) : (g.cyclesFrom start room path v).Pairwise (· < ·) := by
  induction room generalizing path v with
  | zero => exact .nil
  | succ room ih =>
      rw [cyclesFrom_succ, List.pairwise_flatMap]
      constructor
      · intro next _
        unfold branch
        split
        · exact List.pairwise_singleton _ _
        · split
          · exact ih (v :: path) next
          · exact .nil
      · refine (pairwise_targets hrows v).imp fun hlt cycle h cycle' h' => ?_
        exact lt_of_mem_branch hlt h h'

/-- If the rows ascend, so does the listing. -/
theorem pairwise_listing (hrows : ∀ row ∈ g.toRows, row.Pairwise (· < ·)) (maxLength : Nat) :
    (g.listing maxLength).Pairwise (· < ·) := by
  rw [listing, List.pairwise_flatMap]
  refine ⟨fun start _ => pairwise_cyclesFrom hrows start maxLength [] start, ?_⟩
  refine List.pairwise_lt_range.imp fun hlt cycle h cycle' h' => ?_
  obtain ⟨rest, _, _, rfl⟩ := mem_cyclesFrom.mp h
  obtain ⟨rest', _, _, rfl⟩ := mem_cyclesFrom.mp h'
  exact List.cons_lt_cons_iff.mpr (.inl hlt)

end Elenchus.Adjacency
