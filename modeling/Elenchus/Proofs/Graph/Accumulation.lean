import Mathlib.Algebra.BigOperators.Field
import Mathlib.Algebra.Order.Field.Rat
import Mathlib.Tactic.FieldSimp
import Mathlib.Tactic.Ring
import Elenchus.Graph.Betweenness
import Elenchus.Proofs.Graph.Ways

/-!
# The passes over the layers

From one source, the layers around it are passed over twice, once outward and once back.  The first
pass adds up the numbers of shortest ways (`entry_wayCounts`), the second one the shares of the
nodes (`entry_shares`), in exact numbers here.  Each rests on a recurrence: the shortest ways to a
node come over the nodes just before it (`shortestCount_eq`), and the share of a node is made up of
the shares of those just after it (`share_eq`).  A pass takes what it adds from entries to which
nothing is added later, since an edge onward leads to a node that is met later
(`pairwise_onward`).
-/

namespace Elenchus.Adjacency

variable {g : Adjacency} {s t v w : Nat} {a b : Nat}

/-! ## Parts of the shortest ways -/

/-- The number of shortest ways from a node to another. -/
noncomputable def shortestCount (g : Adjacency) (s t : Nat) : Nat :=
  {way | g.IsShortest s way t}.ncard

/-- The part of the shortest ways from `s` to `t` that pass through `v`, and none where there is no
way. -/
noncomputable def throughPart (g : Adjacency) (s t v : Nat) : Rat :=
  {way | g.IsShortest s way t ∧ v ∈ visited s way}.ncard / g.shortestCount s t

/-- The parts of the shortest ways from a node to all others that pass through a node, added up. -/
noncomputable def share (g : Adjacency) (s v : Nat) : Rat :=
  ∑ t ∈ (Finset.range g.size).erase v, g.throughPart s t v

theorem IsDistance.shortestCount_eq (h : g.IsDistance s t a) :
    g.shortestCount s t = g.wayCount a s t := ncard_isShortest h

theorem IsDistance.shortestCount_ne_zero (h : g.IsDistance s t a) :
    (g.shortestCount s t : Rat) ≠ 0 := by
  rw [h.shortestCount_eq, Nat.cast_ne_zero]
  exact (wayCount_pos_iff.mpr h.walk).ne'

theorem shortestCount_eq_zero (h : ∀ k, ¬g.IsDistance s t k) : g.shortestCount s t = 0 := by
  have hempty : {way | g.IsShortest s way t} = ∅ :=
    Set.eq_empty_of_forall_notMem fun _ hway => h _ hway.isDistance
  rw [shortestCount, hempty, Set.ncard_empty]

theorem throughPart_nonneg (g : Adjacency) (s t v : Nat) : 0 ≤ g.throughPart s t v :=
  div_nonneg (Nat.cast_nonneg _) (Nat.cast_nonneg _)

theorem throughPart_le_one (g : Adjacency) (s t v : Nat) : g.throughPart s t v ≤ 1 := by
  refine div_le_one_of_le₀ (Nat.cast_le.mpr ?_) (Nat.cast_nonneg _)
  exact Set.ncard_le_ncard (fun _ hway => hway.1) (finite_isShortest g s t)

/-- No shortest way passes through a node unless the node is between its ends. -/
theorem throughPart_eq_zero (h : ¬g.Between s v t) : g.throughPart s t v = 0 := by
  have hempty : {way | g.IsShortest s way t ∧ v ∈ visited s way} = ∅ :=
    Set.eq_empty_of_forall_notMem fun _ hway => h (hway.1.between hway.2)
  rw [throughPart, hempty, Set.ncard_empty, Nat.cast_zero, zero_div]

/-- The shortest ways through a node, counted by distances from their first end. -/
theorem throughPart_eq (ha : g.IsDistance s v a) (hb : g.IsDistance s t (a + b)) :
    g.throughPart s t v = g.shortestCount s v * g.wayCount b v t / g.shortestCount s t := by
  by_cases hwalk : g.Walk v b t
  · rw [throughPart, ncard_isShortest_through ha (hb.right ha.walk hwalk) hb,
      ha.shortestCount_eq, Nat.cast_mul]
  · -- The node is not between the ends, and no way of the length that is left leads to the second.
    have hzero : g.wayCount b v t = 0 :=
      Nat.eq_zero_of_not_pos fun h => hwalk (wayCount_pos_iff.mp h)
    rw [hzero, Nat.cast_zero, mul_zero, zero_div]
    refine throughPart_eq_zero ?_
    rintro ⟨d, e, hd, he, hde⟩
    obtain rfl := hd.unique ha
    obtain rfl : e = b := Nat.add_left_cancel (hde.unique hb)
    exact hwalk he.walk

theorem throughPart_self (h : g.IsDistance s v a) : g.throughPart s v v = 1 := by
  rw [throughPart_eq (b := 0) h h, wayCount, if_pos rfl, Nat.cast_one, mul_one,
    div_self h.shortestCount_ne_zero]

/-- No way to another node leads through one that is as far away. -/
theorem throughPart_eq_zero_of_near (hle : a ≤ b) (hb : g.IsDistance s w b) (hne : w ≠ t)
    (hnear : ∀ c, ¬g.IsDistance s t (a + (c + 1))) : g.throughPart s t w = 0 := by
  refine throughPart_eq_zero ?_
  rintro ⟨d, e, hd, he, hde⟩
  obtain rfl := hd.unique hb
  cases e with
  | zero => exact hne (isDistance_zero_iff.mp he)
  | succ e => exact hnear (d - a + e) (by rwa [show a + (d - a + e + 1) = d + (e + 1) by omega])

/-! ## Onward edges -/

theorem mem_order : v ∈ (g.layering s).order ↔ v < g.size ∧ ∃ k, g.IsDistance s v k := by
  rw [(layered_layering g s).mem]
  simp only [ge_iff_le, Nat.zero_le, true_and]

theorem count_onward (hv : v < g.size) (ha : g.IsDistance s v a) (hw : w < g.size)
    (hb : g.IsDistance s w (a + 1)) :
    (g.onward (g.layering s) v).count w = (g.targets v).count w := by
  refine List.count_filter (beq_iff_eq.mpr ?_)
  rw [distance?_layering.mpr ⟨hv, ha⟩, distance?_layering.mpr ⟨hw, hb⟩]
  rfl

theorem mem_onward (hv : v < g.size) (ha : g.IsDistance s v a) :
    w ∈ g.onward (g.layering s) v ↔
      w ∈ g.targets v ∧ w < g.size ∧ g.IsDistance s w (a + 1) := by
  rw [onward, List.mem_filter, distance?_layering.mpr ⟨hv, ha⟩, Option.map_some, beq_iff_eq,
    distance?_layering]

theorem not_mem_onward_self (hv : v ∈ (g.layering s).order) :
    v ∉ g.onward (g.layering s) v := by
  intro hmem
  obtain ⟨hv, a, ha⟩ := mem_order.mp hv
  have := ((mem_onward hv ha).mp hmem).2.2.unique ha
  omega

/-- Edges onward lead to nodes that are met later. -/
theorem pairwise_onward (g : Adjacency) (s : Nat) :
    (g.layering s).order.Pairwise fun v w => v ∉ g.onward (g.layering s) w := by
  refine ((layered_layering g s).ascending.imp_of_mem ?_)
  intro v w hv hw hle hmem
  obtain ⟨hv, a, ha⟩ := mem_order.mp hv
  obtain ⟨hw, b, hb⟩ := mem_order.mp hw
  have := hle _ _ ((mem_onward hw hb).mp hmem).2.2 hb
  omega

/-! ## Recurrences -/

/-- A sum over the nodes that are met, where the others count for nothing. -/
theorem sum_order (f : Nat → Rat) (h : ∀ v < g.size, v ∉ (g.layering s).order → f v = 0) :
    ((g.layering s).order.map f).sum = ∑ v ∈ Finset.range g.size, f v := by
  rw [← List.sum_toFinset f (layered_layering g s).nodup]
  refine Finset.sum_subset (fun v hv => ?_) fun v hv hnot => ?_
  · exact Finset.mem_range.mpr (mem_order.mp (List.mem_toFinset.mp hv)).1
  · exact h v (Finset.mem_range.mp hv) fun hmem => hnot (List.mem_toFinset.mpr hmem)

/-- What is handed on along an edge comes from a node at a distance. -/
theorem exists_isDistance_of_onward (hv : v < g.size)
    (h : (g.onward (g.layering s) v).count w * g.shortestCount s v ≠ 0) :
    ∃ a, g.IsDistance s v a ∧ g.IsDistance s w (a + 1) := by
  obtain ⟨hcount, hways⟩ := Nat.mul_ne_zero_iff.mp h
  by_contra hnone
  refine hways (shortestCount_eq_zero fun a ha => hnone ⟨a, ha, ?_⟩)
  have hmem := List.count_pos_iff.mp (Nat.pos_of_ne_zero hcount)
  exact ((mem_onward hv ha).mp hmem).2.2

theorem onward_mul_shortestCount (hv : v < g.size) (hw : w < g.size)
    (ha : g.IsDistance s w (a + 1)) :
    (g.onward (g.layering s) v).count w * g.shortestCount s v =
      g.wayCount a s v * (g.targets v).count w := by
  by_cases hva : g.IsDistance s v a
  · rw [count_onward hv hva hw ha, hva.shortestCount_eq, Nat.mul_comm]
  · have hleft : (g.onward (g.layering s) v).count w * g.shortestCount s v = 0 := by
      by_contra hne
      obtain ⟨b, hvb, hwb⟩ := exists_isDistance_of_onward hv hne
      obtain rfl := Nat.succ.inj (hwb.unique ha)
      exact hva hvb
    have hright : g.wayCount a s v * (g.targets v).count w = 0 := by
      by_contra hne
      obtain ⟨hways, hcount⟩ := Nat.mul_ne_zero_iff.mp hne
      exact hva (ha.left (wayCount_pos_iff.mp (Nat.pos_of_ne_zero hways))
        (walk_single (List.count_pos_iff.mp (Nat.pos_of_ne_zero hcount))))
    rw [hleft, hright]

section
variable (hrange : g.InRange)

include hrange

/-- The shortest ways to a node come over the nodes just before it. -/
theorem shortestCount_eq (hs : s < g.size) (hw : w ∈ (g.layering s).order) :
    (g.shortestCount s w : Rat) = (if w = s then 1 else 0) +
      ((g.layering s).order.map fun v =>
        ((g.onward (g.layering s) v).count w * g.shortestCount s v : Rat)).sum := by
  obtain ⟨hw, a, ha⟩ := mem_order.mp hw
  rw [sum_order]
  · cases a with
    | zero =>
        obtain rfl := isDistance_zero_iff.mp ha
        rw [ha.shortestCount_eq, wayCount, if_pos rfl, if_pos rfl, Nat.cast_one, left_eq_add]
        refine Finset.sum_eq_zero fun v hv => ?_
        by_contra hne
        obtain ⟨b, _, hb⟩ :=
          exists_isDistance_of_onward (Finset.mem_range.mp hv) (by exact_mod_cast hne)
        exact Nat.succ_ne_zero b (hb.unique ha)
    | succ a =>
        have hne : w ≠ s := by
          rintro rfl
          exact Nat.succ_ne_zero a (ha.unique (isDistance_zero w))
        rw [if_neg hne, zero_add, ha.shortestCount_eq, wayCount_add hrange a 1 hs]
        push_cast
        refine Finset.sum_congr rfl fun v hv => ?_
        have hv := Finset.mem_range.mp hv
        rw [wayCount_one hrange v w hw]
        exact_mod_cast (onward_mul_shortestCount hv hw ha).symm
  · intro v hv hnot
    rw [shortestCount_eq_zero fun k hk => hnot (mem_order.mpr ⟨hv, k, hk⟩), Nat.cast_zero, mul_zero]

/-- The shortest ways that pass through a node, by the node just after it. -/
theorem throughPart_step (hv : v < g.size) (ha : g.IsDistance s v a) (hne : t ≠ v) :
    g.throughPart s t v = ∑ w ∈ Finset.range g.size,
      ((g.onward (g.layering s) v).count w *
        (g.shortestCount s v / g.shortestCount s w * g.throughPart s t w) : Rat) := by
  by_cases hfar : ∃ b, g.IsDistance s t (a + (b + 1))
  · obtain ⟨b, hb⟩ := hfar
    rw [throughPart_eq ha hb, wayCount_succ hrange, Nat.cast_sum, Finset.mul_sum, Finset.sum_div]
    refine Finset.sum_congr rfl fun w hw => ?_
    have hw := Finset.mem_range.mp hw
    by_cases hwa : g.IsDistance s w (a + 1)
    · have hb' : g.IsDistance s t (a + 1 + b) := by rwa [Nat.add_right_comm]
      rw [count_onward hv ha hw hwa, throughPart_eq hwa hb', Nat.cast_mul]
      have hne := hwa.shortestCount_ne_zero
      field_simp
    · have hnot : w ∉ g.onward (g.layering s) v := fun hmem =>
        hwa ((mem_onward hv ha).mp hmem).2.2
      have hzero : (g.targets v).count w * g.wayCount b w t = 0 := by
        by_contra hne
        obtain ⟨hcount, hways⟩ := Nat.mul_ne_zero_iff.mp hne
        have hmem := List.count_pos_iff.mp (Nat.pos_of_ne_zero hcount)
        have hwalk := wayCount_pos_iff.mp (Nat.pos_of_ne_zero hways)
        rw [← Nat.add_assoc, Nat.add_right_comm] at hb
        exact hwa (hb.left (walk_succ_iff.mpr ⟨v, ha.walk, hmem⟩) hwalk)
      rw [hzero, List.count_eq_zero_of_not_mem hnot]
      simp only [Nat.cast_zero, mul_zero, zero_div, zero_mul]
  · -- The node is as far away, and so are those just after it.
    have hnear : ∀ b, ¬g.IsDistance s t (a + (b + 1)) := fun b hb => hfar ⟨b, hb⟩
    rw [throughPart_eq_zero_of_near (Nat.le_refl a) ha hne.symm hnear, eq_comm]
    refine Finset.sum_eq_zero fun w _ => ?_
    by_cases hmem : w ∈ g.onward (g.layering s) v
    · have hwa := ((mem_onward hv ha).mp hmem).2.2
      have hwt : w ≠ t := by
        rintro rfl
        exact hnear 0 hwa
      rw [throughPart_eq_zero_of_near (Nat.le_succ a) hwa hwt hnear, mul_zero, mul_zero]
    · rw [List.count_eq_zero_of_not_mem hmem, Nat.cast_zero, zero_mul]

/-- The share of a node is made up of the shares of the nodes just after it. -/
theorem share_eq (hv : v ∈ (g.layering s).order) :
    g.share s v = ((g.layering s).order.map fun w =>
      ((g.onward (g.layering s) v).count w *
        (g.shortestCount s v / g.shortestCount s w * (1 + g.share s w)) : Rat)).sum := by
  obtain ⟨hv, a, ha⟩ := mem_order.mp hv
  have honward : ∀ w, w ∈ g.onward (g.layering s) v → w < g.size ∧ g.IsDistance s w (a + 1) :=
    fun w hmem => ((mem_onward hv ha).mp hmem).2
  rw [sum_order]
  · rw [share, Finset.sum_congr rfl fun t ht =>
      throughPart_step hrange hv ha (Finset.ne_of_mem_erase ht), Finset.sum_comm]
    refine Finset.sum_congr rfl fun w _ => ?_
    rw [← Finset.mul_sum, ← Finset.mul_sum]
    by_cases hmem : w ∈ g.onward (g.layering s) v
    · obtain ⟨hw, hwa⟩ := honward w hmem
      -- The way to the node just after another ends there, and none to the other passes it.
      have hself : g.throughPart s w w = 1 := throughPart_self hwa
      have hback : g.throughPart s v w = 0 := by
        refine throughPart_eq_zero ?_
        rintro ⟨d, e, hd, _, hde⟩
        obtain rfl := hd.unique hwa
        have := hde.unique ha
        omega
      have hall := Finset.add_sum_erase _ (g.throughPart s · w) (Finset.mem_range.mpr hv)
      have hall' := Finset.add_sum_erase _ (g.throughPart s · w) (Finset.mem_range.mpr hw)
      rw [hback, zero_add] at hall
      rw [hself] at hall'
      rw [hall, ← hall', share]
    · rw [List.count_eq_zero_of_not_mem hmem, Nat.cast_zero, zero_mul, zero_mul]
  · intro w hw hnot
    have hnot : w ∉ g.onward (g.layering s) v := fun hmem =>
      hnot (mem_order.mpr ⟨hw, a + 1, (honward w hmem).2⟩)
    rw [List.count_eq_zero_of_not_mem hnot, Nat.cast_zero, zero_mul]

end

/-! ## Tables -/

/-- Steps that keep the size of a table keep it together. -/
theorem size_foldl {α β : Type} {step : Array α → β → Array α}
    (hstep : ∀ table x, (step table x).size = table.size) (xs : List β) (table : Array α) :
    (xs.foldl step table).size = table.size := by
  induction xs generalizing table with
  | nil => rfl
  | cons x xs ih => rw [List.foldl_cons, ih, hstep]

theorem size_addAt (table : Array Rat) (v : Nat) (x : Rat) :
    (addAt table v x).size = table.size := Array.size_modify

theorem entry_eq_getElem (table : Array Rat) (hv : v < table.size) : entry table v = table[v] := by
  rw [entry, Array.getElem?_eq_getElem hv, Option.getD_some]

theorem entry_addAt (table : Array Rat) (v : Nat) (x : Rat) (hw : w < table.size) :
    entry (addAt table v x) w = entry table w + if w = v then x else 0 := by
  rw [entry, entry, addAt, Array.getElem?_modify, Array.getElem?_eq_getElem hw]
  by_cases hwv : w = v
  · rw [if_pos hwv.symm, if_pos hwv]
    rfl
  · rw [if_neg (Ne.symm hwv), if_neg hwv, add_zero]

theorem entry_addAt_of_ne (table : Array Rat) (x : Rat) (hne : w ≠ v) :
    entry (addAt table v x) w = entry table w := by
  rw [entry, entry, addAt, Array.getElem?_modify, if_neg (Ne.symm hne)]

theorem entry_replicate_zero (n v : Nat) : entry (Array.replicate n (0 : Rat)) v = 0 := by
  rw [entry, Array.getElem?_replicate]
  split <;> rfl

/-- Adding at some nodes what depends on the entry of another one: it is added at each node as often
as the node is listed. -/
theorem entry_foldl_addAt (x : Rat → Nat → Rat) {nodes : List Nat} (hw : w ∉ nodes)
    (table : Array Rat) (hv : v < table.size) :
    entry (nodes.foldl (fun table u => addAt table u (x (entry table w) u)) table) v =
      entry table v + nodes.count v * x (entry table w) v := by
  induction nodes generalizing table with
  | nil => rw [List.foldl_nil, List.count_nil, Nat.cast_zero, zero_mul, add_zero]
  | cons u nodes ih =>
      obtain ⟨hwu, hw⟩ := not_or.mp fun h => hw (List.mem_cons.mpr h)
      rw [List.foldl_cons, ih hw _ (by rwa [size_addAt]), entry_addAt_of_ne _ _ hwu,
        entry_addAt _ _ _ hv, List.count_cons]
      by_cases hvu : v = u
      · subst hvu
        rw [if_pos rfl, if_pos (beq_self_eq_true v)]
        push_cast
        ring
      · rw [if_neg hvu, if_neg fun heq => hvu (beq_iff_eq.mp heq).symm, add_zero, Nat.add_zero]

/-! ## The order of the passes -/

section
variable {done rest : List Nat} (horder : (g.layering s).order = done ++ v :: rest)

include horder

/-- What is added at a node comes from nodes that are met before it. -/
theorem sum_before (f : Nat → Rat) :
    ((g.layering s).order.map fun u => (g.onward (g.layering s) u).count v * f u).sum =
      (done.map fun u => (g.onward (g.layering s) u).count v * f u).sum := by
  have hself := not_mem_onward_self (g := g) (s := s) (v := v) (by rw [horder]; simp)
  have hlater := pairwise_onward g s
  rw [horder] at hlater ⊢
  have hlater := (List.pairwise_cons.mp (List.pairwise_append.mp hlater).2.1).1
  rw [List.map_append, List.sum_append, add_eq_left]
  refine List.sum_eq_zero fun x hx => ?_
  obtain ⟨u, hu, rfl⟩ := List.mem_map.mp hx
  have hnot : v ∉ g.onward (g.layering s) u := by
    rcases List.mem_cons.mp hu with rfl | hu
    · exact hself
    · exact hlater u hu
  rw [List.count_eq_zero_of_not_mem hnot, Nat.cast_zero, zero_mul]

/-- What a node adds goes to nodes that are met after it. -/
theorem sum_after (f : Nat → Rat) :
    ((g.layering s).order.map fun w => (g.onward (g.layering s) v).count w * f w).sum =
      (rest.map fun w => (g.onward (g.layering s) v).count w * f w).sum := by
  have hself := not_mem_onward_self (g := g) (s := s) (v := v) (by rw [horder]; simp)
  have hlater := pairwise_onward g s
  rw [horder] at hlater ⊢
  have hlater := (List.pairwise_append.mp hlater).2.2
  rw [List.append_cons, List.map_append, List.sum_append, add_eq_right]
  refine List.sum_eq_zero fun x hx => ?_
  obtain ⟨u, hu, rfl⟩ := List.mem_map.mp hx
  have hnot : u ∉ g.onward (g.layering s) v := by
    rcases List.mem_append.mp hu with hu | hu
    · exact hlater u hu v List.mem_cons_self
    · rwa [List.mem_singleton.mp hu]
  rw [List.count_eq_zero_of_not_mem hnot, Nat.cast_zero, zero_mul]

end

/-! ## The pass outward -/

/-- One node's turn: the number of ways to it is added at the nodes just after it. -/
def handOn (g : Adjacency) (l : Layering) (counts : Array Rat) (v : Nat) : Array Rat :=
  (g.onward l v).foldl (fun counts w => addAt counts w (entry counts v)) counts

/-- At the start one way is known, the one that stays at the source. -/
def stayed (g : Adjacency) (s : Nat) : Array Rat := (Array.replicate g.size 0).setIfInBounds s 1

theorem wayCounts_eq (g : Adjacency) (l : Layering) (s : Nat) :
    g.wayCounts l s = l.order.foldl (g.handOn l) (g.stayed s) := rfl

theorem size_handOn (g : Adjacency) (l : Layering) (counts : Array Rat) (v : Nat) :
    (g.handOn l counts v).size = counts.size := size_foldl (fun _ _ => size_addAt _ _ _) _ _

theorem size_foldl_handOn (g : Adjacency) (l : Layering) (done : List Nat) (s : Nat) :
    (done.foldl (g.handOn l) (g.stayed s)).size = g.size := by
  rw [size_foldl (g.size_handOn l), stayed, Array.size_setIfInBounds, Array.size_replicate]

theorem entry_stayed (hv : v < g.size) : entry (g.stayed s) v = if v = s then 1 else 0 := by
  rw [entry, stayed, Array.getElem?_setIfInBounds]
  by_cases hvs : v = s
  · subst hvs
    simp [hv]
  · rw [if_neg (Ne.symm hvs), if_neg hvs]
    exact entry_replicate_zero g.size v

section
variable (hrange : g.InRange)

include hrange

/-- When some nodes have had their turn, the ways over them are counted. -/
theorem entry_foldl_handOn (hs : s < g.size) {done : List Nat}
    (hdone : done <+: (g.layering s).order) (hw : w < g.size) :
    entry (done.foldl (g.handOn (g.layering s)) (g.stayed s)) w = (if w = s then 1 else 0) +
      (done.map fun v =>
        ((g.onward (g.layering s) v).count w * g.shortestCount s v : Rat)).sum := by
  induction done using List.reverseRecOn generalizing w with
  | nil => rw [List.foldl_nil, entry_stayed hw, List.map_nil, List.sum_nil, add_zero]
  | append_singleton done v ih =>
      obtain ⟨rest, horder⟩ := hdone
      rw [← List.append_cons] at horder
      have hv : v ∈ (g.layering s).order := by
        rw [← horder]
        exact List.mem_append_right _ List.mem_cons_self
      have hprefix : done <+: (g.layering s).order := ⟨_, horder⟩
      -- No later turn adds ways to the node whose turn it is: their number is final.
      have hfinal : entry (done.foldl (g.handOn (g.layering s)) (g.stayed s)) v =
          g.shortestCount s v := by
        rw [ih hprefix (mem_order.mp hv).1, shortestCount_eq hrange hs hv, sum_before horder.symm]
      rw [List.foldl_concat, handOn, entry_foldl_addAt (fun y _ => y) (not_mem_onward_self hv) _
        (by rwa [size_foldl_handOn]), ih hprefix hw, hfinal, List.map_append, List.sum_append,
        List.map_singleton, List.sum_singleton, add_assoc]

theorem entry_wayCounts (hs : s < g.size) (hw : w ∈ (g.layering s).order) :
    entry (g.wayCounts (g.layering s) s) w = (g.shortestCount s w : Rat) := by
  rw [wayCounts_eq, entry_foldl_handOn hrange hs (List.prefix_refl _) (mem_order.mp hw).1,
    shortestCount_eq hrange hs hw]

end

/-! ## The pass back -/

/-- A node is entered in the row of each node just after it. -/
def enter (g : Adjacency) (l : Layering) (rows : Array (List Nat)) (v : Nat) : Array (List Nat) :=
  (g.onward l v).foldl (fun rows w => rows.modify w (v :: ·)) rows

theorem precursors_eq (g : Adjacency) (l : Layering) :
    g.precursors l = l.order.foldl (g.enter l) (Array.replicate g.size []) := rfl

theorem count_foldl_modify (u : Nat) (nodes : List Nat) (rows : Array (List Nat))
    (hw : w < rows.size) :
    ((nodes.foldl (fun rows w => rows.modify w (u :: ·)) rows)[w]?.getD []).count v =
      (rows[w]?.getD []).count v + [u].count v * nodes.count w := by
  induction nodes generalizing rows with
  | nil => rw [List.foldl_nil, List.count_nil, Nat.mul_zero, Nat.add_zero]
  | cons x nodes ih =>
      rw [List.foldl_cons, ih _ (by rwa [Array.size_modify]), Array.getElem?_modify,
        List.count_cons (b := x)]
      by_cases hxw : x = w
      · subst hxw
        rw [if_pos rfl, if_pos (beq_self_eq_true x), Array.getElem?_eq_getElem hw, Option.map_some,
          Option.getD_some, Option.getD_some, ← List.singleton_append, List.count_append]
        ring
      · rw [if_neg hxw, if_neg fun heq => hxw (beq_iff_eq.mp heq), Nat.add_zero]

theorem size_enter (g : Adjacency) (l : Layering) (rows : Array (List Nat)) (v : Nat) :
    (g.enter l rows v).size = rows.size := size_foldl (fun _ _ => Array.size_modify) _ _

theorem count_foldl_enter (l : Layering) (nodes : List Nat) (rows : Array (List Nat))
    (hw : w < rows.size) :
    ((nodes.foldl (g.enter l) rows)[w]?.getD []).count v =
      (rows[w]?.getD []).count v + nodes.count v * (g.onward l v).count w := by
  induction nodes generalizing rows with
  | nil => rw [List.foldl_nil, List.count_nil, Nat.zero_mul, Nat.add_zero]
  | cons u nodes ih =>
      rw [List.foldl_cons, ih _ (by rwa [size_enter]), enter,
        count_foldl_modify _ _ _ hw]
      by_cases hvu : v = u
      · subst hvu
        rw [List.count_singleton_self, List.count_cons_self]
        ring
      · have huv : u ≠ v := Ne.symm hvu
        rw [List.count_cons_of_ne huv, List.count_cons_of_ne huv, List.count_nil, Nat.zero_mul,
          Nat.add_zero]

/-- Each node that is met is just before another as often as an edge onward leads to that one. -/
theorem count_precursors (hv : v ∈ (g.layering s).order) (hw : w < g.size) :
    ((g.precursors (g.layering s))[w]?.getD []).count v =
      (g.onward (g.layering s) v).count w := by
  rw [precursors_eq, count_foldl_enter _ _ _ (by rwa [Array.size_replicate]),
    List.count_eq_one_of_mem (layered_layering g s).nodup hv, Array.getElem?_replicate, if_pos hw]
  simp

/-- One node's turn on the way back: its share is added at the nodes just before it, in the parts
in which the ways to it run over them. -/
def handBack (g : Adjacency) (l : Layering) (s w : Nat) (shares : Array Rat) : Array Rat :=
  ((g.precursors l)[w]?.getD []).foldl
    (fun shares v =>
      addAt shares v
        (entry (g.wayCounts l s) v / entry (g.wayCounts l s) w * (1 + entry shares w)))
    shares

theorem shares_eq (g : Adjacency) (l : Layering) (s : Nat) :
    g.shares l s = l.order.foldr (g.handBack l s) (Array.replicate g.size (0 : Rat)) := rfl

theorem size_handBack (g : Adjacency) (l : Layering) (s w : Nat) (shares : Array Rat) :
    (g.handBack l s w shares).size = shares.size := size_foldl (fun _ _ => size_addAt _ _ _) _ _

theorem size_foldr_handBack (g : Adjacency) (l : Layering) (s : Nat) (done : List Nat) :
    (done.foldr (g.handBack l s) (Array.replicate g.size 0)).size = g.size := by
  rw [List.foldr_eq_foldl_reverse, size_foldl fun _ _ => g.size_handBack l s _ _,
    Array.size_replicate]

section
variable (hrange : g.InRange)

include hrange

/-- When some nodes have had their turn, what they hand back is added up. -/
theorem entry_foldr_handBack (hs : s < g.size) {done : List Nat}
    (hdone : done <:+ (g.layering s).order) (hv : v ∈ (g.layering s).order) :
    entry (done.foldr (g.handBack (g.layering s) s) (Array.replicate g.size 0)) v =
      (done.map fun w => ((g.onward (g.layering s) v).count w *
        (g.shortestCount s v / g.shortestCount s w * (1 + g.share s w)) : Rat)).sum := by
  induction done generalizing v with
  | nil => exact entry_replicate_zero g.size v
  | cons w done ih =>
      obtain ⟨rest, horder⟩ := hdone
      have hw : w ∈ (g.layering s).order := by
        rw [← horder]
        exact List.mem_append_right _ List.mem_cons_self
      have hsuffix : done <:+ (g.layering s).order := (List.suffix_cons w done).trans ⟨rest, horder⟩
      have hself : w ∉ (g.precursors (g.layering s))[w]?.getD [] := by
        rw [← List.count_eq_zero, count_precursors hw (mem_order.mp hw).1]
        exact List.count_eq_zero_of_not_mem (not_mem_onward_self hw)
      -- No later turn hands anything back to the node whose turn it is: its share is final.
      have hfinal : entry (done.foldr (g.handBack (g.layering s) s) (Array.replicate g.size 0)) w =
          g.share s w := by
        rw [ih hsuffix hw, share_eq hrange hw, sum_after horder.symm]
      rw [List.foldr_cons, handBack, entry_foldl_addAt
        (fun y v => entry (g.wayCounts (g.layering s) s) v /
          entry (g.wayCounts (g.layering s) s) w * (1 + y)) hself _
        (by rw [size_foldr_handBack]; exact (mem_order.mp hv).1), ih hsuffix hv, hfinal,
        count_precursors hv (mem_order.mp hw).1, entry_wayCounts hrange hs hv,
        entry_wayCounts hrange hs hw, List.map_cons, List.sum_cons, add_comm]

theorem entry_shares (hs : s < g.size) (hv : v ∈ (g.layering s).order) :
    entry (g.shares (g.layering s) s) v = g.share s v := by
  rw [shares_eq, entry_foldr_handBack hrange hs (List.suffix_refl _) hv, share_eq hrange hv]

end

end Elenchus.Adjacency
