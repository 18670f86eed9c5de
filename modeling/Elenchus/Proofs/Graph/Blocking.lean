import Elenchus.Graph.Cycle
import Elenchus.Proofs.Graph.Component

/-!
# Blocked nodes

A search for cycles does not enter a blocked node.  Nothing is lost by that, because of two
invariants of the state.

`Settled` says why a blocked node that is not on the path may be passed over: it does not lead to
the first node, all its targets in the component are blocked too, and it waits for each of them.  So
there is no way back from it (`Settled.no_wayBack`).  A node that is unblocked takes those that wait
for it along, so that none of them stays blocked without a reason; while that goes on, the pending
nodes are excepted from the invariant.

`Held` says that the nodes of a set are blocked and wait for each other only.  They stay blocked
whatever is done for a node outside the set.  When a node is entered, all nodes that are blocked
then are such a set.  So the nodes of the path stay blocked while the search goes on beyond them.
-/

namespace Elenchus

namespace CycleState

theorem mem_waiters_release {s : CycleState} {v x y : Nat} :
    x ∈ (s.release v).waiters y ↔ y ≠ v ∧ x ∈ s.waiters y := by
  simp only [release, waiters, Array.getD_eq_getD_getElem?, Array.getElem?_setIfInBounds]
  by_cases h : v = y
  · subst h
    by_cases hv : v < s.waiting.size <;> simp [hv]
  · simp [h, Ne.symm h]

theorem size_wait (s : CycleState) (v : Nat) (targets : List Nat) :
    (s.wait v targets).waiting.size = s.waiting.size := by
  unfold wait
  induction targets generalizing s with
  | nil => rfl
  | cons w ws ih =>
      refine (ih { s with waiting := s.waiting.modify w (insertNat v) }).trans ?_
      exact Array.size_modify

/-- A node waits as before, and one more node waits for each of the targets. -/
theorem mem_waiters_wait {s : CycleState} {v x y : Nat} {targets : List Nat} :
    x ∈ (s.wait v targets).waiters y ↔
      x ∈ s.waiters y ∨ x = v ∧ y ∈ targets ∧ y < s.waiting.size := by
  induction targets generalizing s with
  | nil => simp [wait]
  | cons w ws ih =>
      have hone : ∀ y, x ∈ ({ s with waiting := s.waiting.modify w (insertNat v) }).waiters y ↔
          x ∈ s.waiters y ∨ x = v ∧ y = w ∧ y < s.waiting.size := by
        intro y
        simp only [waiters, Array.getD_eq_getD_getElem?, Array.getElem?_modify]
        by_cases heq : w = y
        · subst heq
          by_cases hw : w < s.waiting.size
          · simp [hw, mem_insertNat, or_comm]
          · simp [hw]
        · simp [heq, Ne.symm heq]
      have hrest := ih (s := { s with waiting := s.waiting.modify w (insertNat v) })
      change x ∈ (wait { s with waiting := s.waiting.modify w (insertNat v) } v ws).waiters y ↔ _
      rw [hrest, hone, Array.size_modify, List.mem_cons]
      grind

theorem waiters_reset (s : CycleState) (v : Nat) : s.reset.waiters v = [] := by
  rw [reset, waiters, Array.getD_eq_getD_getElem?, Array.getElem?_replicate]
  split <;> rfl

/-- What every release of a blocked node keeps is kept by unblocking. -/
theorem unblock_induction {P : CycleState → Prop}
    (hrelease : ∀ s v, s.blocked.has v = true → P s → P (s.release v)) {s : CycleState} (h : P s)
    (pending : List Nat) : P (s.unblock pending) := by
  induction s, pending using CycleState.unblock.induct with
  | case1 s => rwa [unblock]
  | case2 s v pending hblocked ih =>
      rw [unblock, if_pos hblocked]
      exact ih (hrelease s v hblocked h)
  | case3 s v pending hblocked ih =>
      rw [unblock, if_neg hblocked]
      exact ih h

/-! ## Nodes that stay blocked -/

/-- The nodes of a set are blocked, and they wait for nodes of the set only. -/
structure Held (held : Nat → Prop) (s : CycleState) : Prop where
  blocked : ∀ x, held x → s.blocked.has x = true
  waiters : ∀ x y, held x → x ∈ s.waiters y → held y

section
variable {held : Nat → Prop} {s : CycleState} {v : Nat}

/-- If no node is waited for that is not blocked, all blocked nodes are a set that is held. -/
theorem held_blocked (h : ∀ x y, x ∈ s.waiters y → s.blocked.has y = true) :
    s.Held (s.blocked.has · = true) where
  blocked := fun _ hx => hx
  waiters := fun x y _ hmem => h x y hmem

theorem Held.block (h : s.Held held) (v : Nat) : (s.looked.block v).Held held where
  blocked := by
    intro x hx
    exact Marks.has_mark.mpr (.inr (h.blocked x hx))
  waiters := h.waiters

theorem Held.release (h : s.Held held) (hv : ¬held v) : (s.release v).Held held where
  blocked := by
    intro x hx
    refine Marks.has_unmark.mpr ⟨?_, h.blocked x hx⟩
    rintro rfl
    exact hv hx
  waiters := by
    intro x y hx hmem
    exact h.waiters x y hx (mem_waiters_release.mp hmem).2

theorem Held.wait (h : s.Held held) (hv : ¬held v) (targets : List Nat) :
    (s.wait v targets).Held held where
  blocked := h.blocked
  waiters := by
    intro x y hx hmem
    rcases mem_waiters_wait.mp hmem with hold | ⟨rfl, _⟩
    · exact h.waiters x y hx hold
    · exact absurd hx hv

/-- Unblocking does not reach the set, because no node of it waits for a node outside. -/
theorem Held.unblock {pending : List Nat} (h : s.Held held) (hpending : ∀ v ∈ pending, ¬held v) :
    (s.unblock pending).Held held := by
  induction s, pending using CycleState.unblock.induct with
  | case1 s =>
      rw [CycleState.unblock]
      exact h
  | case2 s v pending hblocked ih =>
      have hv : ¬held v := hpending v List.mem_cons_self
      rw [CycleState.unblock, if_pos hblocked]
      refine ih (h.release hv) (List.forall_mem_append.mpr ⟨?_, ?_⟩)
      · intro x hx hheld
        exact hv (h.waiters x v hheld (List.mem_reverse.mp hx))
      · intro x hx
        exact hpending x (List.mem_cons_of_mem v hx)
  | case3 s v pending hblocked ih =>
      rw [CycleState.unblock, if_neg hblocked]
      refine ih h ?_
      intro x hx
      exact hpending x (List.mem_cons_of_mem v hx)

end

end CycleState

section
variable {component : Marks} {start limit : Nat} {held : Nat → Prop}

/-- Going on along the targets keeps the set blocked if entering a node outside it does. -/
theorem CycleState.Held.along
    {descend : Nat → CycleState → Except Exhaustion Bool × CycleState} {path : List Nat}
    (hdescend : ∀ next s, ¬held next → s.Held held → (descend next s).2.Held held)
    (targets : List Nat) (closed : Bool) {s : CycleState} (h : s.Held held) :
    (Adjacency.along component start limit descend path targets closed s).2.Held held := by
  induction targets generalizing closed s with
  | nil => exact h
  | cons next rest ih =>
      unfold Adjacency.along
      split
      · exact h
      · split
        · exact ih closed h
        · split
          · exact ih true ⟨h.blocked, h.waiters⟩
          · split
            · exact ih closed h
            · rename_i hblocked
              have hnext := hdescend next s (fun hheld => hblocked (h.blocked next hheld)) h
              split
              next heq =>
                rw [heq] at hnext
                exact hnext
              next below after heq =>
                rw [heq] at hnext
                exact ih (closed || below) hnext

/-- A set stays blocked while a node outside it is entered and left. -/
theorem CycleState.Held.circuit (g : Adjacency) (room : Nat) (path : List Nat) {v : Nat}
    (hv : ¬held v) {s : CycleState} (h : s.Held held) :
    (g.circuit component start limit room path v s).2.Held held := by
  induction room generalizing path v s with
  | zero => exact h
  | succ room ih =>
      unfold Adjacency.circuit
      split
      · exact ⟨h.blocked, h.waiters⟩
      · have halong : (Adjacency.along component start limit
            (g.circuit component start limit room (v :: path)) (v :: path) (g.targets v) false
            (s.looked.block v)).2.Held held :=
          (h.block v).along (fun _ _ hnext hs => ih (v :: path) hnext hs) _ _
        split
        next heq =>
          rw [heq] at halong
          exact halong
        next heq =>
          rw [heq] at halong
          exact halong.unblock (List.forall_mem_singleton.mpr hv)
        next heq =>
          rw [heq] at halong
          exact halong.wait hv _

end

/-! ## Nodes that are blocked for a reason -/

section
variable {g : Adjacency} {start : Nat} {component : Marks}

/-- Why a blocked node may be passed over: no way back leads over any of its targets, and it waits
for each of them.  The excepted nodes are those of the path and those about to be unblocked. -/
structure Settled (g : Adjacency) (start : Nat) (component : Marks) (excepted : List Nat)
    (s : CycleState) : Prop where
  size_blocked : s.blocked.size = g.size
  size_waiting : s.waiting.size = g.size
  inside : ∀ x, s.blocked.has x = true → component.has x = true
  awaited : ∀ x y, x ∈ s.waiters y → s.blocked.has y = true
  first : ∀ x, s.blocked.has x = true → x ∉ excepted → start ∉ g.targets x
  targets : ∀ x, s.blocked.has x = true → x ∉ excepted → ∀ y ∈ g.targets x,
    component.has y = true → s.blocked.has y = true ∧ x ∈ s.waiters y

variable {path : List Nat} {s : CycleState} {v : Nat}

/-- From a blocked node that is not on the path no way leads back to the first node. -/
theorem Settled.no_wayBack (hcomponent : g.Encloses start component)
    (h : Settled g start component path s) (hblocked : s.blocked.has v = true) (hout : v ∉ path)
    {longer rest : List Nat} (hlonger : path ⊆ longer) : ¬g.WayBack start longer v rest := by
  intro hway
  induction hway with
  | close hmem => exact h.first _ hblocked hout hmem
  | @step longer rest v w hmem hlt hnew hway ih =>
      have hin := hcomponent.next v w _ _ (h.inside v hblocked) hmem hlt hway
      have hblocked' := (h.targets v hblocked hout w hmem hin).1
      have hout' : w ∉ path := fun hon => hnew (List.mem_cons_of_mem v (hlonger hon))
      exact ih hblocked' hout' (List.subset_cons_of_subset v hlonger)

theorem has_reset (s : CycleState) (x : Nat) : ¬s.reset.blocked.has x = true := by
  rw [CycleState.reset, Marks.has_none]
  exact Bool.false_ne_true

/-- With no node blocked nothing has to be said. -/
theorem settled_reset (hsize : s.blocked.size = g.size) :
    Settled g start component [] s.reset where
  size_blocked := by rw [CycleState.reset, Marks.size_none, hsize]
  size_waiting := by rw [CycleState.reset, Array.size_replicate, hsize]
  inside := fun x hx => absurd hx (has_reset s x)
  awaited := by
    intro x y hmem
    rw [CycleState.waiters_reset] at hmem
    cases hmem
  first := fun x hx => absurd hx (has_reset s x)
  targets := fun x hx => absurd hx (has_reset s x)

/-- A node that is entered is excepted. -/
theorem Settled.block (h : Settled g start component path s) (hv : component.has v = true) :
    Settled g start component (v :: path) (s.looked.block v) := by
  have hother : ∀ x, (s.looked.block v).blocked.has x = true → x ∉ v :: path →
      s.blocked.has x = true ∧ x ∉ path := by
    intro x hx hout
    rw [List.mem_cons, not_or] at hout
    rcases Marks.has_mark.mp hx with ⟨heq, _⟩ | hold
    · exact absurd heq hout.1
    · exact ⟨hold, hout.2⟩
  constructor
  case size_blocked => exact (Marks.size_mark _ _).trans h.size_blocked
  case size_waiting => exact h.size_waiting
  case inside =>
    intro x hx
    rcases Marks.has_mark.mp hx with ⟨rfl, _⟩ | hold
    · exact hv
    · exact h.inside x hold
  case awaited =>
    intro x y hmem
    exact Marks.has_mark.mpr (.inr (h.awaited x y hmem))
  case first =>
    intro x hx hout
    obtain ⟨hblocked, hpath⟩ := hother x hx hout
    exact h.first x hblocked hpath
  case targets =>
    intro x hx hout y hmem hin
    obtain ⟨hblocked, hpath⟩ := hother x hx hout
    obtain ⟨hold, hwaits⟩ := h.targets x hblocked hpath y hmem hin
    exact ⟨Marks.has_mark.mpr (.inr hold), hwaits⟩

/-- A released node takes the place of its waiters among the excepted ones. -/
theorem Settled.release {pending : List Nat}
    (h : Settled g start component (v :: (pending ++ path)) s) :
    Settled g start component ((s.waiters v).reverse ++ pending ++ path) (s.release v) := by
  have hother : ∀ x, (s.release v).blocked.has x = true →
      x ∉ (s.waiters v).reverse ++ pending ++ path →
        s.blocked.has x = true ∧ x ∉ v :: (pending ++ path) ∧ x ∉ s.waiters v := by
    intro x hx hout
    rw [List.append_assoc, List.mem_append, List.mem_reverse, not_or] at hout
    obtain ⟨hne, hblocked⟩ := Marks.has_unmark.mp hx
    exact ⟨hblocked, List.not_mem_cons_of_ne_of_not_mem hne hout.2, hout.1⟩
  constructor
  case size_blocked => exact (Marks.size_unmark _ _).trans h.size_blocked
  case size_waiting => exact (Array.size_setIfInBounds ..).trans h.size_waiting
  case inside =>
    intro x hx
    exact h.inside x (Marks.has_unmark.mp hx).2
  case awaited =>
    intro x y hmem
    obtain ⟨hne, hold⟩ := CycleState.mem_waiters_release.mp hmem
    exact Marks.has_unmark.mpr ⟨hne, h.awaited x y hold⟩
  case first =>
    intro x hx hout
    obtain ⟨hblocked, hpath, _⟩ := hother x hx hout
    exact h.first x hblocked hpath
  case targets =>
    intro x hx hout y hmem hin
    obtain ⟨hblocked, hpath, hwaiter⟩ := hother x hx hout
    obtain ⟨hold, hwaits⟩ := h.targets x hblocked hpath y hmem hin
    -- A node that waited for the released one would be pending.
    have hne : y ≠ v := by
      rintro rfl
      exact hwaiter hwaits
    exact ⟨Marks.has_unmark.mpr ⟨hne, hold⟩, CycleState.mem_waiters_release.mpr ⟨hne, hwaits⟩⟩

/-- A node that is not blocked need not be excepted. -/
theorem Settled.drop (h : Settled g start component (v :: path) s)
    (hv : ¬s.blocked.has v = true) : Settled g start component path s := by
  have hother : ∀ x, s.blocked.has x = true → x ∉ path → x ∉ v :: path := by
    intro x hx hout
    refine List.not_mem_cons_of_ne_of_not_mem ?_ hout
    rintro rfl
    exact hv hx
  exact ⟨h.size_blocked, h.size_waiting, h.inside, h.awaited,
    fun x hx hout => h.first x hx (hother x hx hout),
    fun x hx hout => h.targets x hx (hother x hx hout)⟩

/-- Once the pending nodes are unblocked, only the path is excepted. -/
theorem Settled.unblock {pending : List Nat} (h : Settled g start component (pending ++ path) s) :
    Settled g start component path (s.unblock pending) := by
  induction s, pending using CycleState.unblock.induct with
  | case1 s =>
      rw [CycleState.unblock]
      exact h
  | case2 s v pending hblocked ih =>
      rw [CycleState.unblock, if_pos hblocked]
      exact ih h.release
  | case3 s v pending hblocked ih =>
      rw [CycleState.unblock, if_neg hblocked]
      exact ih (h.drop hblocked)

/-- A node from which no way on was found waits for its targets and need not be excepted. -/
theorem Settled.wait (hcomponent : g.Encloses start component)
    (h : Settled g start component (v :: path) s) (hfirst : start ∉ g.targets v)
    (hall : ∀ y ∈ g.targets v, component.has y = true → s.blocked.has y = true) :
    Settled g start component path (s.wait v ((g.targets v).filter component.has)) := by
  have hmem_wait : ∀ {x y}, x ∈ (s.wait v ((g.targets v).filter component.has)).waiters y ↔
      x ∈ s.waiters y ∨ x = v ∧ y ∈ g.targets v ∧ component.has y = true := by
    intro x y
    rw [CycleState.mem_waiters_wait, List.mem_filter, h.size_waiting, and_assoc]
    refine or_congr_right (and_congr_right fun _ => and_congr_right fun _ => ?_)
    exact and_iff_left_of_imp (hcomponent.lt_size y)
  constructor
  case size_blocked => exact h.size_blocked
  case size_waiting => exact (CycleState.size_wait ..).trans h.size_waiting
  case inside => exact h.inside
  case awaited =>
    intro x y hmem
    rcases hmem_wait.mp hmem with hold | ⟨_, htarget, hin⟩
    · exact h.awaited x y hold
    · exact hall y htarget hin
  case first =>
    intro x hx hout
    by_cases hxv : x = v
    · exact hxv ▸ hfirst
    · exact h.first x hx (List.not_mem_cons_of_ne_of_not_mem hxv hout)
  case targets =>
    intro x hx hout y hmem hin
    by_cases hxv : x = v
    · exact ⟨hall y (hxv ▸ hmem) hin, hmem_wait.mpr (.inr ⟨hxv, hxv ▸ hmem, hin⟩)⟩
    · obtain ⟨hblocked, hwaits⟩ :=
        h.targets x hx (List.not_mem_cons_of_ne_of_not_mem hxv hout) y hmem hin
      exact ⟨hblocked, hmem_wait.mpr (.inl hwaits)⟩

end

end Elenchus
