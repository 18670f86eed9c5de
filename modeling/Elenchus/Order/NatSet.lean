/-!
# Finite sets of numbers

Sets of positions are written as ascending lists without repetitions, so that equal sets are equal
lists.
-/

namespace Elenchus

/-- An ascending list with one more number in its place, unless it is there already. -/
def insertNat (n : Nat) : List Nat → List Nat
  | [] => [n]
  | m :: ms =>
    if n < m then n :: m :: ms
    else if n = m then m :: ms
    else m :: insertNat n ms

/-- The numbers of a list in ascending order, each once. -/
def natSet (numbers : List Nat) : List Nat := numbers.foldl (fun set n => insertNat n set) []

theorem mem_insertNat {n k : Nat} {set : List Nat} : k ∈ insertNat n set ↔ k = n ∨ k ∈ set := by
  induction set with
  | nil => simp [insertNat]
  | cons m ms ih =>
    unfold insertNat
    split
    · simp
    split
    · simp_all
    · simp only [List.mem_cons, ih]; grind

theorem pairwise_insertNat {n : Nat} {set : List Nat} (h : set.Pairwise (· < ·)) :
    (insertNat n set).Pairwise (· < ·) := by
  induction set with
  | nil => simp [insertNat]
  | cons m ms ih =>
    have head := (List.pairwise_cons.1 h).1
    unfold insertNat
    split
    next lt =>
      refine List.pairwise_cons.2 ⟨fun k hk => ?_, h⟩
      rcases List.mem_cons.1 hk with rfl | hk
      · exact lt
      · exact Nat.lt_trans lt (head k hk)
    split
    · exact h
    · refine List.pairwise_cons.2 ⟨fun k hk => ?_, ih (List.pairwise_cons.1 h).2⟩
      rcases mem_insertNat.1 hk with rfl | hk
      · omega
      · exact head k hk

theorem pairwise_natSet (numbers : List Nat) : (natSet numbers).Pairwise (· < ·) := by
  suffices ∀ set : List Nat, set.Pairwise (· < ·) →
      (numbers.foldl (fun set n => insertNat n set) set).Pairwise (· < ·) from
    this [] List.Pairwise.nil
  induction numbers with
  | nil => exact fun _ h => h
  | cons n ns ih => exact fun _ h => ih _ (pairwise_insertNat h)

theorem mem_natSet {k : Nat} {numbers : List Nat} : k ∈ natSet numbers ↔ k ∈ numbers := by
  suffices ∀ set : List Nat,
      k ∈ numbers.foldl (fun set n => insertNat n set) set ↔ k ∈ set ∨ k ∈ numbers by
    simpa [natSet] using this []
  induction numbers with
  | nil => simp
  | cons n ns ih =>
    intro set
    rw [List.foldl_cons, ih, mem_insertNat, List.mem_cons]
    grind

end Elenchus
