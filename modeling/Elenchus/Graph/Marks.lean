/-!
# Marked nodes

A set of the nodes of a graph is kept as one mark for each node.  `Marks.has` is what a set of marks
says of a node; a node outside the graph is never marked.
-/

namespace Elenchus

/-- A mark for each node of a graph. -/
structure Marks where
  bits : Array Bool
deriving DecidableEq, Repr

namespace Marks

/-- No node is marked. -/
def none (size : Nat) : Marks := ⟨Array.replicate size false⟩

def size (m : Marks) : Nat := m.bits.size

def has (m : Marks) (v : Nat) : Bool := m.bits.getD v false

def mark (m : Marks) (v : Nat) : Marks := ⟨m.bits.setIfInBounds v true⟩

def unmark (m : Marks) (v : Nat) : Marks := ⟨m.bits.setIfInBounds v false⟩

/-- The nodes that both have a mark for. -/
def meet (m n : Marks) : Marks := ⟨Array.zipWith (· && ·) m.bits n.bits⟩

/-- How many nodes are marked. -/
def count (m : Marks) : Nat := m.bits.count true

/-- How many nodes of the graph are not marked. -/
def free (m : Marks) : Nat := m.bits.count false

@[simp] theorem size_none (size : Nat) : (none size).size = size := by simp [none, Marks.size]

@[simp] theorem size_mark (m : Marks) (v : Nat) : (m.mark v).size = m.size := by
  simp [mark, size]

@[simp] theorem size_unmark (m : Marks) (v : Nat) : (m.unmark v).size = m.size := by
  simp [unmark, size]

@[simp] theorem has_none (size v : Nat) : (none size).has v = false := by
  rw [none, has, Array.getD_eq_getD_getElem?, Array.getElem?_replicate]
  split <;> rfl

theorem lt_size_of_has {m : Marks} {v : Nat} (h : m.has v = true) : v < m.size := by
  rw [has, Array.getD_eq_getD_getElem?] at h
  by_cases hv : v < m.bits.size
  · exact hv
  · simp [hv] at h

theorem has_mark {m : Marks} {v w : Nat} :
    (m.mark v).has w = true ↔ (w = v ∧ v < m.size) ∨ m.has w = true := by
  simp only [has, mark, size, Array.getD_eq_getD_getElem?, Array.getElem?_setIfInBounds]
  by_cases h : v = w
  · subst h
    by_cases hv : v < m.bits.size <;> simp [hv]
  · simp [h, Ne.symm h]

theorem has_unmark {m : Marks} {v w : Nat} :
    (m.unmark v).has w = true ↔ w ≠ v ∧ m.has w = true := by
  simp only [has, unmark, Array.getD_eq_getD_getElem?, Array.getElem?_setIfInBounds]
  by_cases h : v = w
  · subst h
    by_cases hv : v < m.bits.size <;> simp [hv]
  · simp [h, Ne.symm h]

theorem has_meet {m n : Marks} {v : Nat} :
    (m.meet n).has v = true ↔ m.has v = true ∧ n.has v = true := by
  simp only [has, meet, Array.getD_eq_getD_getElem?, Array.getElem?_zipWith]
  cases m.bits[v]? <;> cases n.bits[v]? <;> simp

theorem free_mark {m : Marks} {v : Nat} (hv : v < m.size) (h : m.has v = false) :
    (m.mark v).free + 1 = m.free := by
  change v < m.bits.size at hv
  have hbit : m.bits[v] = false := by
    rw [has, Array.getD_eq_getD_getElem?, Array.getElem?_eq_getElem hv] at h
    exact h
  have hpos : 0 < m.bits.count false := Array.count_pos_iff.mpr (hbit ▸ Array.getElem_mem hv)
  rw [free, free, mark, Array.setIfInBounds_def, dif_pos hv, Array.count_set, hbit,
    if_pos (beq_self_eq_true _), if_neg (show ¬(true == false) = true from Bool.false_ne_true)]
  omega

theorem count_unmark {m : Marks} {v : Nat} (h : m.has v = true) :
    (m.unmark v).count + 1 = m.count := by
  have hv : v < m.bits.size := lt_size_of_has h
  have hbit : m.bits[v] = true := by
    rw [has, Array.getD_eq_getD_getElem?, Array.getElem?_eq_getElem hv] at h
    exact h
  have hpos : 0 < m.bits.count true := Array.count_pos_iff.mpr (hbit ▸ Array.getElem_mem hv)
  rw [count, count, unmark, Array.setIfInBounds_def, dif_pos hv, Array.count_set, hbit,
    if_pos (beq_self_eq_true _), if_neg (show ¬(false == true) = true from Bool.false_ne_true)]
  omega

/-- Two nodes that are marked are two marks. -/
theorem two_le_count {m : Marks} {v w : Nat} (hne : v ≠ w) (hv : m.has v = true)
    (hw : m.has w = true) : 2 ≤ m.count := by
  have hfirst := count_unmark hv
  have hsecond := count_unmark (has_unmark.mpr ⟨hne.symm, hw⟩)
  omega

end Marks

end Elenchus
