import Mathlib.Algebra.BigOperators.Ring.Finset
import Mathlib.Data.Set.Card
import Elenchus.Proofs.Graph.Distance

/-!
# Counting ways

A way goes along edges, and each step says which edge of its row it takes, so parallel edges make
different ways (`Step`, `IsWay`).  Ways of a given length are counted by their first step
(`wayCount`), and that count is the number of them (`ncard_ways`).  Counts multiply where ways are
put together (`wayCount_add`).

From this follow the numbers of shortest ways: those from a node to another
(`ncard_isShortest`), and those of them that pass through a third node, which are put together from
a shortest way to it and one from it (`ncard_isShortest_through`).
-/

namespace Elenchus.Adjacency

/-- A step along an edge: the place of the edge in the row of the node that is left, and the node
that it leads to. -/
structure Step where
  position : Nat
  target : Nat
deriving DecidableEq

/-- Steps that lead from a node to another. -/
inductive IsWay (g : Adjacency) : Nat → List Step → Nat → Prop
  | stay (v : Nat) : IsWay g v [] v
  | step {v w u i : Nat} {way : List Step} : (g.targets v)[i]? = some w → IsWay g w way u →
      IsWay g v (⟨i, w⟩ :: way) u

/-- A way than which none is shorter. -/
structure IsShortest (g : Adjacency) (s : Nat) (way : List Step) (t : Nat) : Prop where
  isWay : g.IsWay s way t
  least : ∀ other, g.IsWay s other t → way.length ≤ other.length

/-- The nodes that a way passes through, its ends among them. -/
def visited (v : Nat) (way : List Step) : List Nat := v :: way.map (·.target)

variable {g : Adjacency} {s t u v w : Nat} {k : Nat}

/-! ## Ways and walks -/

theorem isWay_append {way rest : List Step} :
    g.IsWay v (way ++ rest) u ↔ ∃ w, g.IsWay v way w ∧ g.IsWay w rest u := by
  induction way generalizing v with
  | nil =>
      refine ⟨fun h => ⟨v, .stay v, h⟩, ?_⟩
      rintro ⟨w, hstay, h⟩
      cases hstay
      exact h
  | cons step way ih =>
      constructor
      · intro h
        cases h with
        | step hmem h =>
            obtain ⟨w, hway, hrest⟩ := ih.mp h
            exact ⟨w, .step hmem hway, hrest⟩
      · rintro ⟨w, hway, hrest⟩
        cases hway with
        | step hmem hway => exact .step hmem (ih.mpr ⟨w, hway, hrest⟩)

theorem walk_iff_exists_isWay : g.Walk v k u ↔ ∃ way, g.IsWay v way u ∧ way.length = k := by
  constructor
  · intro h
    induction h with
    | stay v => exact ⟨[], .stay v, rfl⟩
    | step hmem _ ih =>
        obtain ⟨way, hway, hlength⟩ := ih
        obtain ⟨i, hi⟩ := List.getElem?_of_mem hmem
        exact ⟨⟨i, _⟩ :: way, .step hi hway, by rw [List.length_cons, hlength]⟩
  · rintro ⟨way, hway, rfl⟩
    induction hway with
    | stay v => exact .stay v
    | step hmem _ ih => exact .step (List.mem_of_getElem? hmem) ih

theorem IsWay.walk {way : List Step} (h : g.IsWay v way u) : g.Walk v way.length u :=
  walk_iff_exists_isWay.mpr ⟨way, h, rfl⟩

/-- Shortest ways are those of the length of the distance. -/
theorem isShortest_iff {way : List Step} (h : g.IsDistance s t k) :
    g.IsShortest s way t ↔ g.IsWay s way t ∧ way.length = k := by
  constructor
  · intro hshortest
    obtain ⟨other, hother, hlength⟩ := walk_iff_exists_isWay.mp h.walk
    have hle := hshortest.least other hother
    exact ⟨hshortest.isWay, Nat.le_antisymm (hlength ▸ hle) (h.least _ hshortest.isWay.walk)⟩
  · rintro ⟨hway, rfl⟩
    exact ⟨hway, fun other hother => h.least _ hother.walk⟩

theorem IsShortest.isDistance {way : List Step} (h : g.IsShortest s way t) :
    g.IsDistance s t way.length := by
  refine ⟨h.isWay.walk, fun j hj => ?_⟩
  obtain ⟨other, hother, rfl⟩ := walk_iff_exists_isWay.mp hj
  exact h.least other hother

/-! ## How many ways there are -/

/-- The count of ways of a given length. -/
def wayCount (g : Adjacency) : Nat → Nat → Nat → Nat
  | 0, v, u => if v = u then 1 else 0
  | k + 1, v, u => ((g.targets v).map fun w => g.wayCount k w u).sum

/-- The ways of a given length. -/
def ways (g : Adjacency) : Nat → Nat → Nat → List (List Step)
  | 0, v, u => if v = u then [[]] else []
  | k + 1, v, u =>
    (g.targets v).zipIdx.flatMap fun (w, i) => (g.ways k w u).map (⟨i, w⟩ :: ·)

theorem mem_ways {way : List Step} : way ∈ g.ways k v u ↔ g.IsWay v way u ∧ way.length = k := by
  induction k generalizing v way with
  | zero =>
      rw [ways, List.length_eq_zero_iff]
      constructor
      · intro h
        split at h
        next heq =>
          obtain rfl := List.mem_singleton.mp h
          exact ⟨heq ▸ .stay v, rfl⟩
        next => cases h
      · rintro ⟨h, rfl⟩
        cases h
        rw [if_pos rfl]
        exact List.mem_singleton_self _
  | succ k ih =>
      rw [ways, List.mem_flatMap]
      constructor
      · rintro ⟨⟨w, i⟩, hedge, hmem⟩
        obtain ⟨rest, hrest, rfl⟩ := List.mem_map.mp hmem
        obtain ⟨hway, rfl⟩ := ih.mp hrest
        exact ⟨.step (List.mem_zipIdx_iff_getElem?.mp hedge) hway, rfl⟩
      · rintro ⟨h, hlength⟩
        cases h with
        | stay => cases hlength
        | @step _ w _ i rest hedge hway =>
            have hrest := ih.mpr ⟨hway, Nat.succ.inj hlength⟩
            exact ⟨(w, i), List.mem_zipIdx_iff_getElem?.mpr hedge,
              List.mem_map.mpr ⟨rest, hrest, rfl⟩⟩

theorem nodup_ways (g : Adjacency) (k v u : Nat) : (g.ways k v u).Nodup := by
  induction k generalizing v with
  | zero =>
      rw [ways]
      split
      · exact List.nodup_singleton _
      · exact List.nodup_nil
  | succ k ih =>
      rw [ways, List.nodup_flatMap]
      refine ⟨fun edge _ => (ih edge.1).map fun _ _ heq => (List.cons.inj heq).2, ?_⟩
      -- Ways that take different edges first are different.
      have hnodup : ((g.targets v).zipIdx.map (·.2)).Nodup := by
        rw [List.zipIdx_map_snd]
        exact List.nodup_range'
      refine (List.pairwise_map.mp hnodup).imp fun hne way hway hway' => ?_
      obtain ⟨rest, _, rfl⟩ := List.mem_map.mp hway
      obtain ⟨rest', _, heq⟩ := List.mem_map.mp hway'
      exact hne (congrArg Step.position (List.cons.inj heq).1).symm

theorem length_ways (g : Adjacency) (k v u : Nat) : (g.ways k v u).length = g.wayCount k v u := by
  induction k generalizing v with
  | zero =>
      rw [ways, wayCount]
      split <;> rfl
  | succ k ih =>
      rw [ways, wayCount, List.length_flatMap]
      simp only [List.length_map, ih]
      conv_rhs => rw [← List.zipIdx_map_fst 0 (g.targets v), List.map_map]
      rfl

theorem ncard_ways (g : Adjacency) (k v u : Nat) :
    {way | g.IsWay v way u ∧ way.length = k}.ncard = g.wayCount k v u := by
  have hset : {way | g.IsWay v way u ∧ way.length = k} = ((g.ways k v u).toFinset : Set _) := by
    ext way
    rw [List.coe_toFinset]
    exact mem_ways.symm
  rw [hset, Set.ncard_coe_finset, List.toFinset_card_of_nodup (nodup_ways g k v u), length_ways]

theorem wayCount_pos_iff : 0 < g.wayCount k v u ↔ g.Walk v k u := by
  rw [← length_ways, List.length_pos_iff_exists_mem, walk_iff_exists_isWay]
  simp only [mem_ways]

/-! ## Shortest ways -/

theorem setOf_isShortest (h : g.IsDistance s t k) :
    {way | g.IsShortest s way t} = {way | g.IsWay s way t ∧ way.length = k} :=
  Set.ext fun _ => isShortest_iff h

theorem ncard_isShortest (h : g.IsDistance s t k) :
    {way | g.IsShortest s way t}.ncard = g.wayCount k s t := by
  rw [setOf_isShortest h, ncard_ways]

theorem finite_isShortest (g : Adjacency) (s t : Nat) : {way | g.IsShortest s way t}.Finite := by
  by_cases h : ∃ way, g.IsShortest s way t
  · obtain ⟨way, hway⟩ := h
    refine (g.ways way.length s t).toFinset.finite_toSet.subset fun other hother => ?_
    rw [List.coe_toFinset]
    exact mem_ways.mpr ((isShortest_iff hway.isDistance).mp hother)
  · rw [Set.eq_empty_of_forall_notMem fun way hway => h ⟨way, hway⟩]
    exact Set.finite_empty

/-- A way ends at the target of its last step. -/
theorem isWay_concat {way : List Step} {step : Step} :
    g.IsWay v (way ++ [step]) u ↔
      u = step.target ∧ ∃ w, g.IsWay v way w ∧ (g.targets w)[step.position]? = some u := by
  rw [isWay_append]
  constructor
  · rintro ⟨w, hway, hstep⟩
    cases hstep with
    | step hmem hstay =>
        cases hstay
        exact ⟨rfl, w, hway, hmem⟩
  · rintro ⟨rfl, w, hway, hmem⟩
    exact ⟨w, hway, .step hmem (.stay _)⟩

/-- A way through a node is a way to it and a way from it. -/
theorem exists_isWay_of_visited {way : List Step} (h : g.IsWay s way t) (hv : v ∈ visited s way) :
    ∃ before after, way = before ++ after ∧ g.IsWay s before v ∧ g.IsWay v after t := by
  rcases List.mem_cons.mp hv with rfl | hv
  · exact ⟨[], way, rfl, .stay v, h⟩
  · obtain ⟨step, hstep, rfl⟩ := List.mem_map.mp hv
    obtain ⟨before, after, rfl⟩ := List.append_of_mem hstep
    rw [List.append_cons, isWay_append] at h
    obtain ⟨w, hbefore, hafter⟩ := h
    obtain rfl := (isWay_concat.mp hbefore).1
    exact ⟨before ++ [step], after, List.append_cons .., hbefore, hafter⟩

theorem IsWay.mem_visited {way : List Step} (h : g.IsWay s way v) : v ∈ visited s way := by
  induction h with
  | stay v => exact List.mem_singleton_self v
  | step _ _ ih => exact List.mem_cons_of_mem _ ih

/-- The parts of a shortest way are shortest. -/
theorem IsShortest.between {way : List Step} (h : g.IsShortest s way t) (hv : v ∈ visited s way) :
    g.Between s v t := by
  obtain ⟨before, after, rfl, hbefore, hafter⟩ := exists_isWay_of_visited h.isWay hv
  have hdistance := h.isDistance
  rw [List.length_append] at hdistance
  exact ⟨before.length, after.length, hdistance.left hbefore.walk hafter.walk,
    hdistance.right hbefore.walk hafter.walk, hdistance⟩

/-- The shortest ways through a node are put together from those to it and those from it. -/
theorem ncard_isShortest_through {a b : Nat} (ha : g.IsDistance s v a)
    (hb : g.IsDistance v t b) (hab : g.IsDistance s t (a + b)) :
    {way | g.IsShortest s way t ∧ v ∈ visited s way}.ncard =
      g.wayCount a s v * g.wayCount b v t := by
  have hset : {way | g.IsShortest s way t ∧ v ∈ visited s way} =
      (fun parts : List Step × List Step => parts.1 ++ parts.2) ''
        ({way | g.IsWay s way v ∧ way.length = a} ×ˢ {way | g.IsWay v way t ∧ way.length = b}) := by
    ext way
    constructor
    · rintro ⟨hshortest, hv⟩
      obtain ⟨before, after, rfl, hbefore, hafter⟩ := exists_isWay_of_visited hshortest.isWay hv
      have hlength := hshortest.isDistance.unique hab
      rw [List.length_append] at hlength
      have hlea := ha.least _ hbefore.walk
      have hleb := hb.least _ hafter.walk
      obtain ⟨rfl, rfl⟩ : before.length = a ∧ after.length = b := by omega
      exact ⟨(before, after), ⟨⟨hbefore, rfl⟩, ⟨hafter, rfl⟩⟩, rfl⟩
    · rintro ⟨⟨before, after⟩, ⟨⟨hbefore, rfl⟩, ⟨hafter, rfl⟩⟩, rfl⟩
      refine ⟨(isShortest_iff hab).mpr ⟨isWay_append.mpr ⟨v, hbefore, hafter⟩, ?_⟩, ?_⟩
      · exact List.length_append
      · rw [visited, List.map_append, ← List.cons_append, List.mem_append]
        exact .inl hbefore.mem_visited
  -- A way of known length before the node falls apart there in one way only.
  have hinj : Set.InjOn (fun parts : List Step × List Step => parts.1 ++ parts.2)
      ({way | g.IsWay s way v ∧ way.length = a} ×ˢ
        {way | g.IsWay v way t ∧ way.length = b}) := by
    rintro ⟨before, after⟩ ⟨⟨_, hlength⟩, _⟩ ⟨before', after'⟩ ⟨⟨_, hlength'⟩, _⟩ heq
    obtain ⟨rfl, rfl⟩ := List.append_inj heq (hlength.trans hlength'.symm)
    rfl
  rw [hset, hinj.ncard_image, Set.ncard_prod, ncard_ways, ncard_ways]

/-! ## Sums over all nodes -/

/-- All edges lead to nodes of the graph. -/
def InRange (g : Adjacency) : Prop := ∀ v, ∀ w ∈ g.targets v, w < g.size

theorem IsUndirected.inRange (hg : g.IsUndirected) : g.InRange :=
  fun _ _ hmem => lt_size_of_mem_targets (hg.mem_targets_comm.mp hmem)

/-- A sum over a list of nodes counts how often each node is in it. -/
theorem sum_map_eq_sum_count {α : Type} [Semiring α] {nodes : List Nat} {n : Nat}
    (h : ∀ w ∈ nodes, w < n) (f : Nat → α) :
    (nodes.map f).sum = ∑ w ∈ Finset.range n, nodes.count w * f w := by
  have hsub : nodes.toFinset ⊆ Finset.range n :=
    fun w hw => Finset.mem_range.mpr (h w (List.mem_toFinset.mp hw))
  rw [Finset.sum_list_map_count, Finset.sum_subset hsub]
  · simp only [nsmul_eq_mul]
  · intro w _ hw
    rw [List.count_eq_zero_of_not_mem fun hmem => hw (List.mem_toFinset.mpr hmem), zero_nsmul]

variable (hrange : g.InRange)

include hrange

theorem wayCount_succ (k v u : Nat) :
    g.wayCount (k + 1) v u =
      ∑ w ∈ Finset.range g.size, (g.targets v).count w * g.wayCount k w u := by
  rw [wayCount, sum_map_eq_sum_count (hrange v)]
  rfl

theorem wayCount_add (j k : Nat) (hv : v < g.size) (u : Nat) :
    g.wayCount (j + k) v u =
      ∑ w ∈ Finset.range g.size, g.wayCount j v w * g.wayCount k w u := by
  induction j generalizing v with
  | zero =>
      rw [Nat.zero_add, Finset.sum_eq_single v]
      · rw [wayCount, if_pos rfl, Nat.one_mul]
      · intro w _ hne
        rw [wayCount, if_neg (Ne.symm hne), Nat.zero_mul]
      · exact fun hv' => absurd (Finset.mem_range.mpr hv) hv'
  | succ j ih =>
      rw [Nat.succ_add, wayCount_succ hrange]
      simp only [wayCount_succ hrange j, Finset.sum_mul]
      rw [Finset.sum_comm]
      refine Finset.sum_congr rfl fun w hw => ?_
      rw [ih (Finset.mem_range.mp hw), Finset.mul_sum]
      simp only [Nat.mul_assoc]

theorem wayCount_one (v u : Nat) (hu : u < g.size) : g.wayCount 1 v u = (g.targets v).count u := by
  rw [wayCount_succ hrange, Finset.sum_eq_single u]
  · rw [wayCount, if_pos rfl, Nat.mul_one]
  · intro w _ hne
    rw [wayCount, if_neg hne, Nat.mul_zero]
  · exact fun hu' => absurd (Finset.mem_range.mpr hu) hu'

omit hrange in
theorem IsUndirected.wayCount_comm (hg : g.IsUndirected) (k : Nat) (hv : v < g.size)
    (hu : u < g.size) : g.wayCount k v u = g.wayCount k u v := by
  induction k generalizing v with
  | zero => simp only [wayCount, eq_comm]
  | succ k ih =>
      rw [wayCount_succ hg.inRange, wayCount_add hg.inRange k 1 hu]
      refine Finset.sum_congr rfl fun w hw => ?_
      rw [ih (Finset.mem_range.mp hw), wayCount_one hg.inRange w v hv, hg.count_eq, Nat.mul_comm]

end Elenchus.Adjacency
