import Mathlib.Algebra.Order.BigOperators.Group.Finset
import Mathlib.Order.Interval.Finset.Nat
import Elenchus.Proofs.Budget
import Elenchus.Proofs.Graph.Accumulation

/-!
# Betweenness is the part of the shortest ways

The shares from all sources add up to the parts of the shortest ways that pass through a node, for
each ordered pair of other nodes (`entry_totals`).  In an undirected graph both orders of a pair
give the same part (`throughPart_comm`), so that the score is twice the sum over unordered pairs, in
relation to the number of ordered pairs (`betweenness_spec`).  A sum of parts is not greater than
their number, so that scores are in range before they are put into it.
-/

namespace Elenchus.Adjacency

open scoped Classical in
/-- The pairs of nodes other than the given one that have a way between them, each with the lesser
node first. -/
noncomputable def otherPairs (g : Adjacency) (v : Nat) : Finset (Nat × Nat) :=
  ((Finset.range g.size).erase v ×ˢ (Finset.range g.size).erase v).filter fun pair =>
    pair.1 < pair.2 ∧ ∃ k, g.Walk pair.1 k pair.2

variable {g : Adjacency} {s t v : Nat}

/-! ## Parts of the ways between a pair -/

theorem throughPart_loop (hne : v ≠ s) : g.throughPart s s v = 0 := by
  refine throughPart_eq_zero ?_
  rintro ⟨d, e, hd, _, hde⟩
  obtain rfl : d = 0 := Nat.eq_zero_of_add_eq_zero_right (hde.unique (isDistance_zero s))
  exact hne (isDistance_zero_iff.mp hd).symm

theorem throughPart_comm (hg : g.IsUndirected) (hs : s < g.size) (ht : t < g.size)
    (hv : v < g.size) : g.throughPart s t v = g.throughPart t s v := by
  by_cases hbetween : g.Between s v t
  · obtain ⟨d, e, hd, he, hde⟩ := hbetween
    have hd' := hg.isDistance_comm.mp hd
    have he' := hg.isDistance_comm.mp he
    have hed : g.IsDistance t s (e + d) := Nat.add_comm d e ▸ hg.isDistance_comm.mp hde
    rw [throughPart_eq hd hde, throughPart_eq he' hed, hd.shortestCount_eq, he'.shortestCount_eq,
      hde.shortestCount_eq, hed.shortestCount_eq, hg.wayCount_comm d hs hv,
      hg.wayCount_comm e ht hv, hg.wayCount_comm (e + d) ht hs, Nat.add_comm e d]
    ring
  · rw [throughPart_eq_zero hbetween, throughPart_eq_zero fun h => hbetween (hg.between_comm.mp h)]

/-! ## Totals -/

/-- The shares from one source, its own apart, are added to the totals. -/
def collect (g : Adjacency) (totals : Array Rat) (s : Nat) : Array Rat :=
  ((g.layering s).order.filter (· ≠ s)).foldr
    (fun w totals => addAt totals w (entry (g.shares (g.layering s) s) w)) totals

theorem totals_eq (g : Adjacency) :
    g.totals = g.nodes.foldl g.collect (Array.replicate g.size (0 : Rat)) := rfl

theorem size_collect (totals : Array Rat) : (g.collect totals s).size = totals.size := by
  rw [collect, List.foldr_eq_foldl_reverse, size_foldl fun _ _ => size_addAt _ _ _]

theorem share_eq_zero (h : ∀ k, ¬g.IsDistance s v k) : g.share s v = 0 :=
  Finset.sum_eq_zero fun _ _ => throughPart_eq_zero fun ⟨d, _, hd, _⟩ => h d hd

theorem entry_collect (hrange : g.InRange) (totals : Array Rat) (hs : s < g.size) (hv : v < g.size)
    (hsize : totals.size = g.size) :
    entry (g.collect totals s) v = entry totals v + if s = v then 0 else g.share s v := by
  have hnot : s ∉ ((g.layering s).order.filter (· ≠ s)).reverse := by simp
  rw [collect, List.foldr_eq_foldl_reverse,
    entry_foldl_addAt (fun _ w => entry (g.shares (g.layering s) s) w) hnot _ (by rwa [hsize]),
    List.count_reverse]
  congr 1
  split
  next heq =>
    obtain rfl := heq
    rw [List.count_eq_zero_of_not_mem fun hmem => hnot (List.mem_reverse.mpr hmem), Nat.cast_zero,
      zero_mul]
  next hne =>
    rw [List.count_filter (by simpa using Ne.symm hne)]
    by_cases hmem : v ∈ (g.layering s).order
    · rw [List.count_eq_one_of_mem (layered_layering g s).nodup hmem, Nat.cast_one, one_mul,
        entry_shares hrange hs hmem]
    · rw [List.count_eq_zero_of_not_mem hmem, Nat.cast_zero, zero_mul,
        share_eq_zero fun k hk => hmem (mem_order.mpr ⟨hv, k, hk⟩)]

theorem entry_foldl_collect (hrange : g.InRange) {nodes : List Nat}
    (hnodes : ∀ s ∈ nodes, s < g.size) (totals : Array Rat) (hv : v < g.size)
    (hsize : totals.size = g.size) :
    entry (nodes.foldl g.collect totals) v =
      entry totals v + (nodes.map fun s => if s = v then 0 else g.share s v).sum := by
  induction nodes generalizing totals with
  | nil => rw [List.foldl_nil, List.map_nil, List.sum_nil, add_zero]
  | cons s nodes ih =>
      obtain ⟨hs, hnodes⟩ := List.forall_mem_cons.mp hnodes
      rw [List.foldl_cons, ih hnodes _ (by rw [size_collect, hsize]),
        entry_collect hrange totals hs hv hsize, List.map_cons, List.sum_cons, add_assoc]

theorem size_totals (g : Adjacency) : (g.totals : Array Rat).size = g.size := by
  rw [totals_eq, size_foldl fun _ _ => size_collect _, Array.size_replicate]

/-- The totals are over the ordered pairs of other nodes. -/
theorem entry_totals (hrange : g.InRange) (hv : v < g.size) :
    entry g.totals v = ∑ pair ∈ ((Finset.range g.size).erase v).offDiag,
      g.throughPart pair.1 pair.2 v := by
  have hnodes : ∀ s ∈ g.nodes, s < g.size := fun s hs => List.mem_range.mp hs
  have hsum : (g.nodes.map fun s => if s = v then 0 else g.share s v).sum =
      ∑ s ∈ (Finset.range g.size).erase v, g.share s v := by
    rw [nodes, ← List.sum_toFinset _ List.nodup_range, List.toFinset_range,
      ← Finset.add_sum_erase _ _ (Finset.mem_range.mpr hv), if_pos rfl, zero_add]
    exact Finset.sum_congr rfl fun s hs => if_neg (Finset.ne_of_mem_erase hs)
  rw [totals_eq, entry_foldl_collect hrange hnodes _ hv Array.size_replicate, entry_replicate_zero,
    zero_add, hsum]
  simp only [share]
  rw [← Finset.sum_product', ← Finset.diag_union_offDiag,
    Finset.sum_union (Finset.disjoint_diag_offDiag _), Finset.sum_diag, add_eq_right]
  exact Finset.sum_eq_zero fun s hs => throughPart_loop (Finset.ne_of_mem_erase hs).symm

/-! ## Scores -/

/-- The number of ordered pairs of nodes other than a given one, by which totals are divided. -/
def pairCount (g : Adjacency) : Rat := Scalar.ofNat ((g.size - 1) * (g.size - 2))

theorem betweenness_eq (hsize : 3 ≤ g.size) :
    g.betweenness = g.totals.map fun total : Rat => Scalar.clamped (total / g.pairCount) := by
  rw [betweenness, if_neg (Nat.not_lt.mpr hsize)]
  rfl

theorem pairCount_eq (hsize : 3 ≤ g.size) :
    g.pairCount = (g.size - 1 : Rat) * (g.size - 2) := by
  show (((g.size - 1) * (g.size - 2) : Nat) : Rat) = _
  rw [Nat.cast_mul, Nat.cast_sub (by omega), Nat.cast_sub (by omega)]
  rfl

theorem pairCount_pos (hsize : 3 ≤ g.size) : 0 < g.pairCount := by
  show 0 < (((g.size - 1) * (g.size - 2) : Nat) : Rat)
  exact Nat.cast_pos.mpr (Nat.mul_pos (by omega) (by omega))

theorem card_offDiag_erase (hv : v < g.size) :
    ((Finset.range g.size).erase v).offDiag.card = (g.size - 1) * (g.size - 2) := by
  rw [Finset.offDiag_card, Finset.card_erase_of_mem (Finset.mem_range.mpr hv), Finset.card_range,
    ← Nat.mul_sub_one, Nat.sub_sub]

theorem totals_nonneg (hrange : g.InRange) (hv : v < g.size) :
    0 ≤ entry (g.totals : Array Rat) v := by
  rw [entry_totals hrange hv]
  exact Finset.sum_nonneg fun pair _ => throughPart_nonneg g pair.1 pair.2 v

theorem totals_le (hrange : g.InRange) (hv : v < g.size) :
    entry g.totals v ≤ g.pairCount := by
  show _ ≤ (((g.size - 1) * (g.size - 2) : Nat) : Rat)
  rw [entry_totals hrange hv, ← card_offDiag_erase hv, ← nsmul_one]
  exact Finset.sum_le_card_nsmul _ _ _ fun pair _ => throughPart_le_one g pair.1 pair.2 v

/-- In an undirected graph each pair counts twice. -/
theorem entry_totals_eq_two_mul (hg : g.IsUndirected) (hv : v < g.size) :
    entry g.totals v = 2 * ∑ pair ∈ g.otherPairs v, g.throughPart pair.1 pair.2 v := by
  classical
  set others := (Finset.range g.size).erase v with hothers
  have hlt : ∀ s ∈ others, s < g.size := fun s hs =>
    Finset.mem_range.mp (Finset.mem_of_mem_erase hs)
  -- The pairs the other way round have the same parts.
  have hturn : ∑ pair ∈ others.offDiag with ¬pair.1 < pair.2, g.throughPart pair.1 pair.2 v =
      ∑ pair ∈ others.offDiag with pair.1 < pair.2, g.throughPart pair.1 pair.2 v := by
    refine Finset.sum_equiv (Equiv.prodComm Nat Nat) ?_ ?_
    · rintro ⟨s, t⟩
      simp only [Finset.mem_filter, Finset.mem_offDiag, Equiv.prodComm_apply, Prod.swap_prod_mk]
      grind
    · rintro ⟨s, t⟩ h
      have h := Finset.mem_offDiag.mp (Finset.mem_filter.mp h).1
      exact throughPart_comm hg (hlt s h.1) (hlt t h.2.1) hv
  -- Where there is no way, no part of it passes through the node.
  have hconnected : ∑ pair ∈ others.offDiag with pair.1 < pair.2, g.throughPart pair.1 pair.2 v =
      ∑ pair ∈ g.otherPairs v, g.throughPart pair.1 pair.2 v := by
    refine (Finset.sum_subset ?_ ?_).symm
    · rintro ⟨s, t⟩ h
      simp only [otherPairs, Finset.mem_filter, Finset.mem_product, Finset.mem_offDiag] at h ⊢
      exact ⟨⟨h.1.1, h.1.2, Nat.ne_of_lt h.2.1⟩, h.2.1⟩
    · rintro ⟨s, t⟩ h hnot
      simp only [otherPairs, Finset.mem_filter, Finset.mem_product, Finset.mem_offDiag] at h hnot
      refine throughPart_eq_zero ?_
      rintro ⟨d, e, _, _, hde⟩
      exact hnot ⟨⟨h.1.1, h.1.2.1⟩, h.2, d + e, hde.walk⟩
  rw [entry_totals hg.inRange hv,
    ← Finset.sum_filter_add_sum_filter_not _ fun pair => pair.1 < pair.2, hturn, hconnected,
    two_mul]

theorem clamped_eq_self {x : Rat} (h0 : 0 ≤ x) (h1 : x ≤ 1) : Scalar.clamped x = x := by
  have hbelow : ¬Scalar.less x (Scalar.ofNat 0) = true := not_lt.mpr h0
  have habove : ¬Scalar.less (Scalar.ofNat 1) x = true := not_lt.mpr h1
  rw [Scalar.clamped, if_neg hbelow, if_neg habove]

/-- A total is that of some node, and not greater than the number of pairs. -/
theorem score_mem_range (hrange : g.InRange) (hsize : 3 ≤ g.size) {total : Rat}
    (htotal : total ∈ (g.totals : Array Rat)) :
    0 ≤ total / g.pairCount ∧ total / g.pairCount ≤ 1 := by
  obtain ⟨v, hv, rfl⟩ := Array.getElem_of_mem htotal
  rw [← entry_eq_getElem]
  rw [size_totals] at hv
  have hpairs := (pairCount_pos hsize).le
  exact ⟨div_nonneg (totals_nonneg hrange hv) hpairs,
    div_le_one_of_le₀ (totals_le hrange hv) hpairs⟩

/-- In an undirected graph the score of a node is the part of the shortest ways that pass through
it, over all pairs of other nodes that have a way between them, in relation to the number of pairs.
On the way there is no division by zero, and no score has to be put into range. -/
theorem betweenness_spec (g : Adjacency) (budget : Budget) (hg : g.IsUndirected)
    (hsize : 3 ≤ g.size) (hbudget : budget.Unhindered) :
    (∃ scores : Array Rat, g.betweennessWithin budget = .ok scores ∧ scores.size = g.size ∧
      ∀ v < g.size, scores[v]? = some (2 / ((g.size - 1 : Rat) * (g.size - 2)) *
        ∑ pair ∈ g.otherPairs v, g.throughPart pair.1 pair.2 v)) ∧
    (∀ s < g.size, ∀ w ∈ (g.layering s).order,
      entry (g.wayCounts (g.layering s) s) w ≠ (0 : Rat)) ∧
    g.pairCount ≠ 0 ∧
    ∀ total ∈ (g.totals : Array Rat), 0 ≤ total / g.pairCount ∧ total / g.pairCount ≤ 1 ∧
      Scalar.clamped (total / g.pairCount) = total / g.pairCount := by
  have hrange := hg.inRange
  have hclamped : ∀ total ∈ (g.totals : Array Rat),
      Scalar.clamped (total / g.pairCount) = total / g.pairCount := by
    intro total htotal
    obtain ⟨h0, h1⟩ := score_mem_range hrange hsize htotal
    exact clamped_eq_self h0 h1
  refine ⟨⟨g.betweenness, ?_, ?_, fun v hv => ?_⟩, fun s hs w hw => ?_, (pairCount_pos hsize).ne',
    fun total htotal => ?_⟩
  · rw [betweennessWithin, hbudget]
  · rw [betweenness_eq hsize, Array.size_map, size_totals]
  · have hlt : v < (g.totals : Array Rat).size := by rwa [size_totals]
    rw [betweenness_eq hsize, Array.getElem?_map, Array.getElem?_eq_getElem hlt, Option.map_some,
      hclamped _ (Array.getElem_mem hlt), ← entry_eq_getElem, entry_totals_eq_two_mul hg hv,
      pairCount_eq hsize]
    congr 1
    ring
  · rw [entry_wayCounts hrange hs hw]
    obtain ⟨_, k, hk⟩ := mem_order.mp hw
    exact hk.shortestCount_ne_zero
  · obtain ⟨h0, h1⟩ := score_mem_range hrange hsize htotal
    exact ⟨h0, h1, hclamped total htotal⟩

/-- Four nodes in a ring, the first two joined by two edges. -/
def doubledEdge : Adjacency := ofRows [[1, 1, 3], [0, 0, 2], [1, 3], [0, 2]]

-- Of the three shortest ways from the first node to the third, two pass through the second.
example : doubledEdge.betweenness = #[(2 : Rat) / 9, 2 / 9, 1 / 9, 1 / 9] := by cbv

theorem betweenness_doubledEdge :
    doubledEdge.IsUndirected ∧ 3 ≤ doubledEdge.size ∧ Budget.unlimited.Unhindered ∧
    (∃ scores : Array Rat, doubledEdge.betweennessWithin Budget.unlimited = .ok scores ∧
      scores.size = doubledEdge.size ∧
      ∀ v < doubledEdge.size, scores[v]? =
        some (2 / ((doubledEdge.size - 1 : Rat) * (doubledEdge.size - 2)) *
          ∑ pair ∈ doubledEdge.otherPairs v, doubledEdge.throughPart pair.1 pair.2 v)) ∧
    (∀ s < doubledEdge.size, ∀ w ∈ (doubledEdge.layering s).order,
      entry (doubledEdge.wayCounts (doubledEdge.layering s) s) w ≠ (0 : Rat)) ∧
    doubledEdge.pairCount ≠ 0 ∧
    ∀ total ∈ (doubledEdge.totals : Array Rat),
      0 ≤ total / doubledEdge.pairCount ∧ total / doubledEdge.pairCount ≤ 1 ∧
        Scalar.clamped (total / doubledEdge.pairCount) = total / doubledEdge.pairCount := by
  have hundirected : doubledEdge.IsUndirected := by decide
  have hsize : 3 ≤ doubledEdge.size := by decide
  have hbudget : Budget.unlimited.Unhindered := Budget.unhindered_of_never rfl rfl
  exact ⟨hundirected, hsize, hbudget,
    betweenness_spec doubledEdge Budget.unlimited hundirected hsize hbudget⟩

end Elenchus.Adjacency
