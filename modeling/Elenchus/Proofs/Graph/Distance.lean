import Mathlib.Data.Finset.Card
import Mathlib.Data.Nat.Find
import Elenchus.Graph.Distance

/-!
# The search by layers finds distances

The distance of two nodes is the length of a shortest walk between them (`IsDistance`).  The layers
around a node are the nodes at the distances `0`, `1`, … from it, and the search stores with each
node the distance at which it was met (`layered_layering`).  So it knows the distance of each node,
and knows none exactly where no walk leads (`distance?_eq_some_iff`, `distance?_eq_none_iff`).

The nodes that depend on a node are read off distances alone, half of the pairs looked at; in an
undirected graph the other half says nothing new (`dependents_spec`).
-/

namespace Elenchus.Adjacency

/-- The length of a shortest walk from a node to another. -/
structure IsDistance (g : Adjacency) (source target k : Nat) : Prop where
  walk : g.Walk source k target
  least : ∀ j, g.Walk source j target → k ≤ j

variable {g : Adjacency} {source u v w : Nat} {j k : Nat}

/-! ## Walks -/

theorem Walk.trans (h : g.Walk u j v) (h' : g.Walk v k w) : g.Walk u (j + k) w := by
  induction h with
  | stay v => rwa [Nat.zero_add]
  | step hmem _ ih =>
      rw [Nat.succ_add]
      exact .step hmem (ih h')

theorem walk_single (h : w ∈ g.targets v) : g.Walk v 1 w := .step h (.stay w)

/-- The last step of a walk. -/
theorem walk_succ_iff : g.Walk v (k + 1) w ↔ ∃ u, g.Walk v k u ∧ w ∈ g.targets u := by
  constructor
  · intro h
    induction k generalizing v with
    | zero =>
        cases h with
        | step hmem hrest =>
            cases hrest
            exact ⟨v, .stay v, hmem⟩
    | succ k ih =>
        cases h with
        | step hmem hrest =>
            obtain ⟨u, hwalk, hlast⟩ := ih hrest
            exact ⟨u, .step hmem hwalk, hlast⟩
  · rintro ⟨u, hwalk, hlast⟩
    exact hwalk.trans (walk_single hlast)

/-! ## Distances -/

theorem IsDistance.unique (h : g.IsDistance u v j) (h' : g.IsDistance u v k) : j = k :=
  Nat.le_antisymm (h.least k h'.walk) (h'.least j h.walk)

theorem isDistance_zero (v : Nat) : g.IsDistance v v 0 := ⟨.stay v, fun _ _ => Nat.zero_le _⟩

theorem isDistance_zero_iff : g.IsDistance u v 0 ↔ u = v := by
  constructor
  · intro h
    cases h.walk
    rfl
  · rintro rfl
    exact isDistance_zero u

/-- Two walks that make up a shortest one are shortest. -/
theorem IsDistance.left (h : g.IsDistance u w (j + k)) (hj : g.Walk u j v) (hk : g.Walk v k w) :
    g.IsDistance u v j := by
  refine ⟨hj, fun i hi => ?_⟩
  have := h.least _ (hi.trans hk)
  omega

theorem IsDistance.right (h : g.IsDistance u w (j + k)) (hj : g.Walk u j v) (hk : g.Walk v k w) :
    g.IsDistance v w k := by
  refine ⟨hk, fun i hi => ?_⟩
  have := h.least _ (hj.trans hi)
  omega

/-- Where a walk leads there is a shortest one. -/
theorem Walk.exists_isDistance (h : g.Walk u k v) : ∃ j ≤ k, g.IsDistance u v j := by
  classical
  have hex : ∃ j, g.Walk u j v := ⟨k, h⟩
  exact ⟨Nat.find hex, Nat.find_min' hex h, Nat.find_spec hex, fun j hj => Nat.find_min' hex hj⟩

/-- A shortest walk is shortest up to its last step. -/
theorem IsDistance.exists_before (h : g.IsDistance u w (k + 1)) :
    ∃ v, g.IsDistance u v k ∧ w ∈ g.targets v := by
  obtain ⟨v, hwalk, hmem⟩ := walk_succ_iff.mp h.walk
  exact ⟨v, h.left hwalk (walk_single hmem), hmem⟩

/-- On the way to a node there is one at every lesser distance. -/
theorem IsDistance.exists_at (h : g.IsDistance u w k) (hw : w < g.size) (hle : j ≤ k) :
    ∃ v < g.size, g.IsDistance u v j := by
  induction k generalizing w with
  | zero =>
      obtain rfl := Nat.le_zero.mp hle
      exact ⟨w, hw, h⟩
  | succ k ih =>
      rcases Nat.le_succ_iff.mp hle with hle | rfl
      · obtain ⟨v, hv, hmem⟩ := h.exists_before
        exact ih hv (lt_size_of_mem_targets hmem) hle
      · exact ⟨w, hw, h⟩

/-- Nodes at all distances up to one are as many nodes. -/
theorem IsDistance.lt_size (h : g.IsDistance u v k) (hv : v < g.size) : k < g.size := by
  classical
  choose! at' hat using fun j (hj : j ≤ k) => h.exists_at hv hj
  have hmaps : ∀ j ∈ Finset.range (k + 1), at' j ∈ Finset.range g.size := by
    intro j hj
    exact Finset.mem_range.mpr (hat j (Nat.lt_succ_iff.mp (Finset.mem_range.mp hj))).1
  have hinj : Set.InjOn at' (Finset.range (k + 1)) := by
    intro i hi j hj heq
    have hi := (hat i (Nat.lt_succ_iff.mp (Finset.mem_range.mp hi))).2
    have hj := (hat j (Nat.lt_succ_iff.mp (Finset.mem_range.mp hj))).2
    rw [heq] at hi
    exact hi.unique hj
  have hcard := Finset.card_le_card_of_injOn at' hmaps hinj
  rw [Finset.card_range, Finset.card_range] at hcard
  exact hcard

/-! ## Marking -/

/-- What is marked is new: it stands among the nodes and had no distance. -/
structure Marked (d : Nat) (nodes : List Nat) (distances : Array (Option Nat))
    (after : List Nat × Array (Option Nat)) : Prop where
  size_eq : after.2.size = distances.size
  mem : ∀ v, v ∈ after.1 ↔ v ∈ nodes ∧ distances[v]? = some none
  nodup : after.1.Nodup
  known : ∀ v k, after.2[v]? = some (some k) ↔
    distances[v]? = some (some k) ∨ v ∈ after.1 ∧ k = d

theorem marked_mark (d : Nat) (nodes : List Nat) (distances : Array (Option Nat)) :
    Marked d nodes distances (mark d nodes distances) := by
  induction nodes generalizing distances with
  | nil => exact ⟨rfl, by simp [mark], .nil, by simp [mark]⟩
  | cons w nodes ih =>
      unfold mark
      split
      next hnew =>
        have hlt : w < distances.size := (Array.getElem?_eq_some_iff.mp hnew).1
        have hafter := ih (distances.setIfInBounds w (some d))
        have hset : ∀ v, (distances.setIfInBounds w (some d))[v]? =
            if v = w then some (some d) else distances[v]? := by
          intro v
          rw [Array.getElem?_setIfInBounds]
          by_cases hv : w = v
          · simp [hv, hv ▸ hlt]
          · simp [hv, Ne.symm hv]
        dsimp only
        refine ⟨hafter.size_eq.trans Array.size_setIfInBounds, fun v => ?_, ?_, fun v k => ?_⟩
        · rw [List.mem_cons, List.mem_cons, hafter.mem, hset]
          by_cases hv : v = w
          · simp [hv, hnew]
          · simp [hv]
        · refine List.nodup_cons.mpr ⟨fun hmem => ?_, hafter.nodup⟩
          have := ((hafter.mem w).mp hmem).2
          simp [hset] at this
        · rw [hafter.known, hset, List.mem_cons]
          by_cases hv : v = w
          · subst hv
            have hnot : v ∉ (mark d nodes (distances.setIfInBounds v (some d))).1 := by
              intro hmem
              have := ((hafter.mem v).mp hmem).2
              simp [hset] at this
            simp [hnew, hnot, eq_comm]
          · simp [hv]
      next hold =>
        have hafter := ih distances
        refine ⟨hafter.size_eq, fun v => ?_, hafter.nodup, hafter.known⟩
        rw [hafter.mem, List.mem_cons]
        constructor
        · rintro ⟨hmem, hnone⟩
          exact ⟨.inr hmem, hnone⟩
        · rintro ⟨rfl | hmem, hnone⟩
          · exact (hold hnone).elim
          · exact ⟨hmem, hnone⟩

/-! ## Layers -/

/-- A search that has come to a layer: the nodes at its distance make it up, and the distances up to
it are known. -/
structure Reached (g : Adjacency) (source d : Nat) (layer : List Nat)
    (distances : Array (Option Nat)) : Prop where
  size_eq : distances.size = g.size
  known : ∀ v k, distances[v]? = some (some k) ↔ v < g.size ∧ k ≤ d ∧ g.IsDistance source v k
  mem : ∀ v, v ∈ layer ↔ v < g.size ∧ g.IsDistance source v d
  nodup : layer.Nodup

/-- The layers of a search from a distance on: they have the nodes at this distance or farther, in
order, and in the end all distances are known. -/
structure Layered (g : Adjacency) (source d : Nat) (l : Layering) : Prop where
  size_eq : l.distances.size = g.size
  known : ∀ v k, l.distances[v]? = some (some k) ↔ v < g.size ∧ g.IsDistance source v k
  mem : ∀ v, v ∈ l.order ↔ v < g.size ∧ ∃ k ≥ d, g.IsDistance source v k
  nodup : l.order.Nodup
  ascending : l.order.Pairwise fun u v =>
    ∀ j k, g.IsDistance source u j → g.IsDistance source v k → j ≤ k

section
variable {d : Nat} {layer : List Nat} {distances : Array (Option Nat)}

/-- A node without a distance is farther than the layer. -/
theorem Reached.eq_none_iff (h : Reached g source d layer distances) (hv : v < g.size) :
    distances[v]? = some none ↔ ∀ k ≤ d, ¬g.IsDistance source v k := by
  constructor
  · intro hnone k hle hk
    have hknown := (h.known v k).mpr ⟨hv, hle, hk⟩
    rw [hnone] at hknown
    cases hknown
  · intro hfar
    have hlt : v < distances.size := by rwa [h.size_eq]
    rw [Array.getElem?_eq_getElem hlt]
    congr 1
    cases hdistance : distances[v] with
    | none => rfl
    | some k =>
        have hk := (h.known v k).mp (by rw [Array.getElem?_eq_getElem hlt, hdistance])
        exact (hfar k hk.2.1 hk.2.2).elim

theorem Reached.next (h : Reached g source d layer distances)
    (next : List Nat × Array (Option Nat))
    (hnext : Marked (d + 1) (layer.flatMap g.targets) distances next) :
    Reached g source (d + 1) next.1 next.2 := by
  have hmem : ∀ v, v ∈ next.1 ↔ v < g.size ∧ g.IsDistance source v (d + 1) := by
    intro v
    rw [hnext.mem, List.mem_flatMap]
    constructor
    · rintro ⟨⟨u, hu, huv⟩, hnone⟩
      have hv : v < g.size := by
        rw [← h.size_eq]
        exact (Array.getElem?_eq_some_iff.mp hnone).1
      refine ⟨hv, walk_succ_iff.mpr ⟨u, ((h.mem u).mp hu).2.walk, huv⟩, fun j hj => ?_⟩
      obtain ⟨i, hij, hi⟩ := hj.exists_isDistance
      by_contra hlt
      exact (h.eq_none_iff hv).mp hnone i (by omega) hi
    · rintro ⟨hv, hdistance⟩
      obtain ⟨u, hu, huv⟩ := hdistance.exists_before
      refine ⟨⟨u, (h.mem u).mpr ⟨lt_size_of_mem_targets huv, hu⟩, huv⟩, ?_⟩
      refine (h.eq_none_iff hv).mpr fun k hle hk => ?_
      have := hk.unique hdistance
      omega
  refine ⟨hnext.size_eq.trans h.size_eq, fun v k => ?_, hmem, hnext.nodup⟩
  rw [hnext.known, h.known, hmem]
  constructor
  · rintro (⟨hv, hle, hk⟩ | ⟨⟨hv, hk⟩, rfl⟩)
    · exact ⟨hv, Nat.le_succ_of_le hle, hk⟩
    · exact ⟨hv, Nat.le_refl _, hk⟩
  · rintro ⟨hv, hle, hk⟩
    rcases Nat.le_succ_iff.mp hle with hle | rfl
    · exact .inl ⟨hv, hle, hk⟩
    · exact .inr ⟨⟨hv, hk⟩, rfl⟩

/-- When no node is left at a distance, the search is over. -/
theorem Reached.layered_nil (h : Reached g source d layer distances)
    (hend : ∀ v < g.size, ¬g.IsDistance source v d) : Layered g source d ⟨[], distances⟩ := by
  have hnone : ∀ v < g.size, ∀ k ≥ d, ¬g.IsDistance source v k := by
    intro v hv k hle hk
    obtain ⟨u, hu, hd⟩ := hk.exists_at hv hle
    exact hend u hu hd
  refine ⟨h.size_eq, fun v k => ?_, fun v => ?_, .nil, .nil⟩
  · rw [h.known]
    refine ⟨fun hk => ⟨hk.1, hk.2.2⟩, fun hk => ⟨hk.1, ?_, hk.2⟩⟩
    by_contra hlt
    exact hnone v hk.1 k (by omega) hk.2
  · refine ⟨fun hv => absurd hv List.not_mem_nil, ?_⟩
    rintro ⟨hv, k, hle, hk⟩
    exact (hnone v hv k hle hk).elim

theorem Reached.layered (h : Reached g source d layer distances) {fuel : Nat}
    (hfuel : g.size ≤ fuel + d) : Layered g source d (g.layersFrom fuel d layer distances) := by
  induction fuel generalizing d layer distances with
  | zero =>
      refine h.layered_nil fun v hv hd => ?_
      have := hd.lt_size hv
      omega
  | succ fuel ih =>
      unfold layersFrom
      split
      next hempty =>
        refine h.layered_nil fun v hv hd => ?_
        have hmem := (h.mem v).mpr ⟨hv, hd⟩
        rw [hempty] at hmem
        cases hmem
      next =>
        have hnext := h.next _ (marked_mark (d + 1) (layer.flatMap g.targets) distances)
        have hrest := ih hnext (by omega)
        refine ⟨hrest.size_eq, hrest.known, fun v => ?_, ?_, ?_⟩
        · show v ∈ layer ++ Layering.order _ ↔ _
          rw [List.mem_append, h.mem, hrest.mem]
          constructor
          · rintro (⟨hv, hd⟩ | ⟨hv, k, hle, hk⟩)
            · exact ⟨hv, d, Nat.le_refl d, hd⟩
            · exact ⟨hv, k, by omega, hk⟩
          · rintro ⟨hv, k, hle, hk⟩
            rcases Nat.eq_or_lt_of_le hle with rfl | hlt
            · exact .inl ⟨hv, hk⟩
            · exact .inr ⟨hv, k, hlt, hk⟩
        · refine List.nodup_append.mpr ⟨h.nodup, hrest.nodup, ?_⟩
          rintro v hv _ hv' rfl
          obtain ⟨_, k, hle, hk⟩ := (hrest.mem v).mp hv'
          have := ((h.mem v).mp hv).2.unique hk
          omega
        · refine List.pairwise_append.mpr ⟨?_, hrest.ascending, ?_⟩
          · refine List.pairwise_of_forall_mem_list fun u hu v hv j k hj hk => ?_
            rw [hj.unique ((h.mem u).mp hu).2, hk.unique ((h.mem v).mp hv).2]
          · intro u hu v hv j k hj hk
            obtain ⟨_, i, hle, hi⟩ := (hrest.mem v).mp hv
            rw [hj.unique ((h.mem u).mp hu).2, hk.unique hi]
            omega

end

/-- The search finds the layers around a node, and all distances. -/
theorem layered_layering (g : Adjacency) (source : Nat) :
    Layered g source 0 (g.layering source) := by
  have hstart := marked_mark 0 [source] (Array.replicate g.size none)
  have hnone : ∀ v, (Array.replicate g.size (none : Option Nat))[v]? = some none ↔ v < g.size := by
    intro v
    rw [Array.getElem?_replicate]
    by_cases hv : v < g.size <;> simp [hv]
  have hmem : ∀ v, v ∈ (mark 0 [source] (Array.replicate g.size none)).1 ↔
      v < g.size ∧ g.IsDistance source v 0 := by
    intro v
    rw [hstart.mem, hnone, List.mem_singleton, isDistance_zero_iff, and_comm, eq_comm]
  have hreached : Reached g source 0 (mark 0 [source] (Array.replicate g.size none)).1
      (mark 0 [source] (Array.replicate g.size none)).2 := by
    refine ⟨hstart.size_eq.trans Array.size_replicate, fun v k => ?_, hmem, hstart.nodup⟩
    rw [hstart.known, hmem]
    constructor
    · rintro (hknown | ⟨⟨hv, hdistance⟩, rfl⟩)
      · rw [Array.getElem?_replicate] at hknown
        split at hknown <;> simp at hknown
      · exact ⟨hv, Nat.le_refl 0, hdistance⟩
    · rintro ⟨hv, hle, hk⟩
      obtain rfl := Nat.le_zero.mp hle
      exact .inr ⟨⟨hv, hk⟩, rfl⟩
  exact hreached.layered (Nat.le_refl g.size)

theorem distance?_layering :
    (g.layering source).distance? v = some k ↔ v < g.size ∧ g.IsDistance source v k := by
  have hlayered := layered_layering g source
  rw [Layering.distance?, Option.getD_eq_iff]
  simp only [hlayered.known, reduceCtorEq, and_false, or_false]

theorem distance?_eq_some_iff (hv : v < g.size) :
    g.distance? source v = some k ↔ g.IsDistance source v k :=
  distance?_layering.trans (and_iff_right hv)

theorem distance?_eq_none_iff (hv : v < g.size) :
    g.distance? source v = none ↔ ∀ k, ¬g.Walk source k v := by
  rw [Option.eq_none_iff_forall_ne_some]
  constructor
  · intro hnone k hwalk
    obtain ⟨j, _, hj⟩ := hwalk.exists_isDistance
    exact hnone j ((distance?_eq_some_iff hv).mpr hj)
  · intro hnone k hk
    exact hnone k ((distance?_eq_some_iff hv).mp hk).walk

/-! ## Undirected graphs -/

/-- Each edge is there in both directions, and as often in the one as in the other. -/
def IsUndirected (g : Adjacency) : Prop :=
  ∀ v ∈ g.nodes, ∀ w ∈ g.targets v, (g.targets w).count v = (g.targets v).count w

instance (g : Adjacency) : Decidable g.IsUndirected := List.decidableBAll _ _

namespace IsUndirected

variable (hg : g.IsUndirected)

include hg

theorem count_eq (v w : Nat) : (g.targets w).count v = (g.targets v).count w := by
  by_cases hmem : w ∈ g.targets v
  · exact hg v (List.mem_range.mpr (lt_size_of_mem_targets hmem)) w hmem
  · by_cases hmem' : v ∈ g.targets w
    · exact (hg w (List.mem_range.mpr (lt_size_of_mem_targets hmem')) v hmem').symm
    · rw [List.count_eq_zero_of_not_mem hmem, List.count_eq_zero_of_not_mem hmem']

theorem mem_targets_comm : w ∈ g.targets v ↔ v ∈ g.targets w := by
  rw [← List.count_pos_iff, ← List.count_pos_iff, hg.count_eq]

theorem walk_comm : g.Walk v k w ↔ g.Walk w k v := by
  have hturn : ∀ {k v w}, g.Walk v k w → g.Walk w k v := by
    intro k v w h
    induction h with
    | stay v => exact .stay v
    | step hmem _ ih => exact walk_succ_iff.mpr ⟨_, ih, hg.mem_targets_comm.mp hmem⟩
  exact ⟨hturn, hturn⟩

theorem isDistance_comm : g.IsDistance v w k ↔ g.IsDistance w v k :=
  ⟨fun h => ⟨hg.walk_comm.mp h.walk, fun j hj => h.least j (hg.walk_comm.mp hj)⟩,
    fun h => ⟨hg.walk_comm.mp h.walk, fun j hj => h.least j (hg.walk_comm.mp hj)⟩⟩

end IsUndirected

/-! ## Dependents -/

/-- A shortest way from a node to another leads through a third one. -/
def Between (g : Adjacency) (s via t : Nat) : Prop :=
  ∃ d e, g.IsDistance s via d ∧ g.IsDistance via t e ∧ g.IsDistance s t (d + e)

theorem IsUndirected.between_comm (hg : g.IsUndirected) {s via t : Nat} :
    g.Between s via t ↔ g.Between t via s := by
  have hturn : ∀ {s t}, g.Between s via t → g.Between t via s := by
    rintro s t ⟨d, e, hd, he, hde⟩
    refine ⟨e, d, hg.isDistance_comm.mp he, hg.isDistance_comm.mp hd, ?_⟩
    rw [Nat.add_comm]
    exact hg.isDistance_comm.mp hde
  exact ⟨hturn, hturn⟩

theorem passes_iff (hg : g.IsUndirected) {s via t : Nat} (hs : s < g.size) (ht : t < g.size) :
    passes (g.layering via) (g.layering s) s t = true ↔ g.Between s via t := by
  have hvia : ∀ v < g.size, ∀ d, (g.layering via).distance? v = some d ↔ g.IsDistance via v d :=
    fun v hv d => distance?_eq_some_iff hv
  unfold passes
  constructor
  · intro h
    split at h
    next d e hd he =>
      rw [beq_iff_eq] at h
      exact ⟨d, e, hg.isDistance_comm.mp ((hvia s hs d).mp hd), (hvia t ht e).mp he,
        (distance?_eq_some_iff ht).mp h⟩
    next => cases h
  · rintro ⟨d, e, hd, he, hde⟩
    rw [(hvia s hs d).mpr (hg.isDistance_comm.mp hd), (hvia t ht e).mpr he]
    dsimp only
    rw [beq_iff_eq]
    exact (distance?_eq_some_iff ht).mpr hde

theorem mem_dependents (hg : g.IsUndirected) {via : Nat} :
    v ∈ g.dependents via ↔
      v ∈ g.nodes ∧ v ≠ via ∧ ∃ t ∈ g.nodes, t ≠ v ∧ t ≠ via ∧ g.Between v via t := by
  have hothers : ∀ {v}, v ∈ g.nodes.filter (· ≠ via) ↔ v ∈ g.nodes ∧ v ≠ via := by
    intro v
    rw [List.mem_filter, decide_eq_true_eq]
  have hends : ∀ {s t}, s ∈ g.nodes → (t ∈ (g.nodes.filter (· ≠ via)).filter
      (fun t => s < t && passes (g.layering via) (g.layering s) s t) ↔
        (t ∈ g.nodes ∧ t ≠ via) ∧ s < t ∧ g.Between s via t) := by
    intro s t hs
    rw [List.mem_filter, hothers, Bool.and_eq_true, decide_eq_true_eq]
    refine and_congr_right fun ht => and_congr_right fun _ => ?_
    exact passes_iff hg (List.mem_range.mp hs) (List.mem_range.mp ht.1)
  unfold dependents
  rw [List.mem_filter, hothers, and_assoc]
  refine and_congr_right fun hv => and_congr_right fun hvia => ?_
  rw [List.any_map, List.any_eq_true]
  constructor
  · rintro ⟨s, hs, hend⟩
    obtain ⟨hs, hsvia⟩ := hothers.mp hs
    rcases (Bool.or_eq_true _ _).mp hend with hfirst | hsecond
    · obtain ⟨heq, hsome⟩ := (Bool.and_eq_true _ _).mp hfirst
      obtain rfl := beq_iff_eq.mp heq
      obtain ⟨t, ht⟩ := List.exists_mem_of_ne_nil _
        (List.isEmpty_eq_false_iff.mp ((Bool.not_eq_true' _).mp hsome))
      obtain ⟨⟨ht, htvia⟩, hlt, hbetween⟩ := (hends hs).mp ht
      exact ⟨t, ht, Nat.ne_of_gt hlt, htvia, hbetween⟩
    · obtain ⟨_, hlt, hbetween⟩ := (hends hs).mp (List.contains_iff_mem.mp hsecond)
      exact ⟨s, hs, Nat.ne_of_lt hlt, hsvia, hg.between_comm.mp hbetween⟩
  · rintro ⟨t, ht, hne, htvia, hbetween⟩
    rcases Nat.lt_or_gt_of_ne hne with hlt | hgt
    · -- The pair is looked at from its lesser end, which is the other one.
      refine ⟨t, hothers.mpr ⟨ht, htvia⟩, (Bool.or_eq_true _ _).mpr (.inr ?_)⟩
      exact List.contains_iff_mem.mpr
        ((hends ht).mpr ⟨⟨hv, hvia⟩, hlt, hg.between_comm.mp hbetween⟩)
    · have hmem := (hends hv).mpr ⟨⟨ht, htvia⟩, hgt, hbetween⟩
      refine ⟨v, hothers.mpr ⟨hv, hvia⟩, (Bool.or_eq_true _ _).mpr (.inl ?_)⟩
      rw [Bool.and_eq_true, beq_iff_eq]
      exact ⟨rfl, by simpa using List.ne_nil_of_mem hmem⟩

theorem pairwise_dependents (g : Adjacency) (via : Nat) :
    (g.dependents via).Pairwise (· < ·) :=
  (List.pairwise_lt_range.filter _).filter _

/-- In an undirected graph the nodes that depend on a node are the ends of the shortest ways that
lead through it; they are listed in order.  The distances on which that rests are right. -/
theorem dependents_spec (g : Adjacency) (via : Nat) (hg : g.IsUndirected) :
    ((g.dependents via).Pairwise (· < ·) ∧
      ∀ s, s ∈ g.dependents via ↔
        s ∈ g.nodes ∧ s ≠ via ∧ ∃ t ∈ g.nodes, t ≠ s ∧ t ≠ via ∧ g.Between s via t) ∧
    ∀ source, (g.distances source).size = g.size ∧ ∀ v ∈ g.nodes,
      (∀ k, (g.distances source)[v]? = some (some k) ↔ g.IsDistance source v k) ∧
        ((g.distances source)[v]? = some none ↔ ∀ k, ¬g.Walk source k v) := by
  refine ⟨⟨pairwise_dependents g via, fun s => mem_dependents hg⟩, fun source => ?_⟩
  have hlayered := layered_layering g source
  refine ⟨hlayered.size_eq, fun v hv => ?_⟩
  have hv := List.mem_range.mp hv
  have hlt : v < (g.distances source).size := by
    rw [show (g.distances source).size = g.size from hlayered.size_eq]
    exact hv
  refine ⟨fun k => (hlayered.known v k).trans (and_iff_right hv), ?_⟩
  rw [← distance?_eq_none_iff hv, distance?, Layering.distance?]
  show (g.distances source)[v]? = some none ↔ (g.distances source)[v]?.getD none = none
  rw [Array.getElem?_eq_getElem hlt, Option.some_inj, Option.getD_some]

/-- Three nodes in a row, and one apart. -/
def threeInLine : Adjacency := ofRows [[1], [0, 2], [1], []]

theorem dependents_threeInLine :
    threeInLine.IsUndirected ∧ threeInLine.dependents 1 = [0, 2] ∧
      ((threeInLine.dependents 1).Pairwise (· < ·) ∧
        ∀ s, s ∈ threeInLine.dependents 1 ↔
          s ∈ threeInLine.nodes ∧ s ≠ 1 ∧
            ∃ t ∈ threeInLine.nodes, t ≠ s ∧ t ≠ 1 ∧ threeInLine.Between s 1 t) ∧
      ∀ source, (threeInLine.distances source).size = threeInLine.size ∧ ∀ v ∈ threeInLine.nodes,
        (∀ k, (threeInLine.distances source)[v]? = some (some k) ↔
            threeInLine.IsDistance source v k) ∧
          ((threeInLine.distances source)[v]? = some none ↔ ∀ k, ¬threeInLine.Walk source k v) := by
  have hline : threeInLine.IsUndirected := by decide
  exact ⟨hline, by decide, dependents_spec threeInLine 1 hline⟩

end Elenchus.Adjacency
