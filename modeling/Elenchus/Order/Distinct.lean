import Std.Data.HashSet

/-!
# First occurrences

A list without its repetitions, each member staying where it comes first.  What was met already is
kept in a hash set, so the list is gone through once; `distinct_eq_eraseDups` says that the result
is the plain one, which is part of the list (`eraseDups_sublist`) and has each member once
(`nodup_eraseDups`).
-/

namespace Elenchus

variable {α : Type} [BEq α] [Hashable α]

/-- The members of a list that are not among those seen already, each once. -/
def distinctBeyond (seen : Std.HashSet α) : List α → List α
  | [] => []
  | a :: as =>
    if seen.contains a then distinctBeyond seen as else a :: distinctBeyond (seen.insert a) as

/-- A list without its repetitions, each member where it comes first. -/
def distinct (as : List α) : List α := distinctBeyond ∅ as

theorem distinctBeyond_eq [LawfulBEq α] (seen : Std.HashSet α) (as : List α) :
    distinctBeyond seen as = (as.filter fun a => !seen.contains a).eraseDups := by
  induction as generalizing seen with
  | nil => simp [distinctBeyond]
  | cons a as ih =>
    unfold distinctBeyond
    split
    next known => simp [known, ih]
    next new =>
      rw [ih, List.filter_cons_of_pos (by simpa using new), List.eraseDups_cons, List.filter_filter]
      congr 2
      apply List.filter_congr
      intro b _
      simp only [Std.HashSet.contains_insert, Bool.not_or]
      congr 1
      rw [Bool.beq_comm]

theorem distinct_eq_eraseDups [LawfulBEq α] (as : List α) : distinct as = as.eraseDups := by
  rw [distinct, distinctBeyond_eq]
  congr 1
  simp

omit [Hashable α] in
theorem eraseDups_sublist : (as : List α) → as.eraseDups.Sublist as
  | [] => .slnil
  | a :: as => by
    rw [List.eraseDups_cons]
    exact .cons_cons a ((eraseDups_sublist _).trans List.filter_sublist)
termination_by as => as.length
decreasing_by exact Nat.lt_succ_of_le (List.length_filter_le _ _)

omit [Hashable α] in
theorem nodup_eraseDups [LawfulBEq α] : (as : List α) → as.eraseDups.Nodup
  | [] => List.nodup_nil
  | a :: as => by
    rw [List.eraseDups_cons]
    refine List.nodup_cons.mpr ⟨fun h => ?_, nodup_eraseDups _⟩
    simpa using (List.mem_filter.mp (List.mem_eraseDups.mp h)).2
termination_by as => as.length
decreasing_by exact Nat.lt_succ_of_le (List.length_filter_le _ _)

end Elenchus
