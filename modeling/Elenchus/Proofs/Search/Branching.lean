import Elenchus.Proofs.Search.Trail
import Elenchus.Search.Solver

/-!
# Occurrences, pure literals and the literal to branch on

The search decides by counts.  `getElem?_occurrences` says what is counted; what `pureLiterals` and
`branch?` do is then said of the counted literals themselves: a literal is pure when it is among
them and its negation is not, no variable is listed twice, a literal to branch on has a variable
that is counted, and there is none exactly when nothing is.
-/

namespace Elenchus.Search

/-! ## What is counted -/

section
variable {clauses : List (Clause × Nat)} {t : Trail} {l : Literal}

theorem mem_openLiterals : l ∈ openLiterals clauses t ↔
    ∃ c ∈ clauses, t.satisfies c.1 = false ∧ l ∈ c.1.literals ∧ t.value? l.var = none := by
  simp only [openLiterals, List.mem_flatMap, List.mem_filter, Trail.mem_unassigned,
    Bool.not_eq_true', and_assoc]

end

/-- Each count goes up by the occurrences of the two literals of its variable. -/
theorem getElem?_countAll (counts : Array Count) (literals : List Literal) (v : Nat) :
    (literals.foldl (fun counts l => counts.modify l.var (·.add l.positive)) counts)[v]? =
      counts[v]?.map fun count =>
        ⟨count.positive + literals.count ⟨v, true⟩,
          count.negative + literals.count ⟨v, false⟩⟩ := by
  induction literals generalizing counts with
  | nil => simp
  | cons l ls ih =>
      obtain ⟨w, sign⟩ := l
      rw [List.foldl_cons, ih, Array.getElem?_modify]
      by_cases hv : w = v
      · subst hv
        rw [if_pos rfl, Option.map_map]
        refine congrArg (fun f => Option.map f _) (funext fun count => ?_)
        cases sign <;> simp [Count.add] <;> omega
      · rw [if_neg hv]
        have hne : ∀ b, (⟨w, sign⟩ : Literal) ≠ ⟨v, b⟩ := fun b h => hv (congrArg Literal.var h)
        simp only [List.count_cons_of_ne (hne _)]

theorem getElem?_occurrences {size v : Nat} (literals : List Literal) (hv : v < size) :
    (occurrences size literals)[v]? =
      some ⟨literals.count ⟨v, true⟩, literals.count ⟨v, false⟩⟩ := by
  rw [occurrences, Array.getElem?_toList, getElem?_countAll]
  simp [hv]

theorem length_occurrences (size : Nat) (literals : List Literal) :
    (occurrences size literals).length = size := by
  suffices ∀ counts : Array Count,
      (literals.foldl (fun counts l => counts.modify l.var (·.add l.positive)) counts).size =
        counts.size by
    rw [occurrences, Array.length_toList, this, Array.size_replicate]
  induction literals with
  | nil => exact fun _ => rfl
  | cons l ls ih =>
      intro counts
      rw [List.foldl_cons, ih, Array.size_modify]

/-- A count is read off at its position. -/
theorem eq_of_mem_zipIdx_occurrences {size v : Nat} {count : Count} {literals : List Literal}
    (h : (count, v) ∈ (occurrences size literals).zipIdx) :
    v < size ∧ count = ⟨literals.count ⟨v, true⟩, literals.count ⟨v, false⟩⟩ := by
  have hat : (occurrences size literals)[v]? = some count := List.mem_zipIdx_iff_getElem?.mp h
  have hv : v < size := length_occurrences size literals ▸ (List.getElem?_eq_some_iff.mp hat).1
  rw [getElem?_occurrences literals hv] at hat
  exact ⟨hv, (Option.some.inj hat).symm⟩

/-! ## Pure literals -/

/-- The literal that a count makes pure. -/
theorem mem_pureLiterals {counts : List Count} {l : Literal} (h : l ∈ pureLiterals counts) :
    ∃ count, (count, l.var) ∈ counts.zipIdx ∧
      (l.positive = true ∧ count.negative = 0 ∧ count.positive ≠ 0 ∨
        l.positive = false ∧ count.positive = 0 ∧ count.negative ≠ 0) := by
  obtain ⟨⟨count, v⟩, hmem, hl⟩ := List.mem_filterMap.mp h
  dsimp only at hl
  split at hl
  · rename_i hpositive
    split at hl
    · cases hl
    · rename_i hnegative
      cases hl
      exact ⟨count, hmem, Or.inr ⟨rfl, hpositive, hnegative⟩⟩
  · rename_i hpositive
    split at hl
    · rename_i hnegative
      cases hl
      exact ⟨count, hmem, Or.inl ⟨rfl, hnegative, hpositive⟩⟩
    · cases hl

/-- A pure literal is one that is counted while its negation is not. -/
theorem pure_of_mem {size : Nat} {literals : List Literal} {l : Literal}
    (h : l ∈ pureLiterals (occurrences size literals)) :
    l.var < size ∧ l ∈ literals ∧ l.negate ∉ literals := by
  obtain ⟨count, hmem, hcount⟩ := mem_pureLiterals h
  obtain ⟨hlt, rfl⟩ := eq_of_mem_zipIdx_occurrences hmem
  obtain ⟨v, sign⟩ := l
  refine ⟨hlt, ?_⟩
  rcases hcount with ⟨hsign, hzero, hpos⟩ | ⟨hsign, hzero, hpos⟩
  · cases hsign
    exact ⟨List.count_pos_iff.mp (Nat.pos_of_ne_zero hpos), List.count_eq_zero.mp hzero⟩
  · cases hsign
    exact ⟨List.count_pos_iff.mp (Nat.pos_of_ne_zero hpos), List.count_eq_zero.mp hzero⟩

/-- No variable has two pure literals. -/
theorem nodup_pureLiterals (counts : List Count) :
    ((pureLiterals counts).map Literal.var).Nodup := by
  have hsub : ((pureLiterals counts).map Literal.var).Sublist (counts.zipIdx.map Prod.snd) := by
    rw [pureLiterals, List.map_filterMap]
    generalize counts.zipIdx = rows
    induction rows with
    | nil => exact List.Sublist.slnil
    | cons row rows ih =>
        rw [List.filterMap_cons, List.map_cons]
        split
        · exact ih.cons _
        · rename_i v hv
          obtain ⟨count, w⟩ := row
          have hvar : v = w := by
            dsimp only at hv
            split at hv <;> split at hv <;> cases hv <;> rfl
          rw [hvar]
          exact ih.cons_cons _
  refine hsub.nodup ?_
  rw [List.zipIdx_map_snd]
  exact List.nodup_range'

/-! ## The literal to branch on -/

/-- The best of some counts has been seen, and is none only if they are all zero. -/
theorem foldl_busiest (rows : List (Count × Nat)) : ∀ best : Option (Count × Nat),
    (∀ top, best = some top → 0 < top.1.total) →
    (∀ top, rows.foldl busiest best = some top →
      0 < top.1.total ∧ (top ∈ rows ∨ best = some top)) ∧
    (rows.foldl busiest best = none → best = none ∧ ∀ row ∈ rows, row.1.total = 0) := by
  induction rows with
  | nil =>
      intro best hbest
      exact ⟨fun top h => ⟨hbest top h, Or.inr h⟩, fun h => ⟨h, List.forall_mem_nil _⟩⟩
  | cons row rows ih =>
      intro best hbest
      have hone : (busiest best row = best ∧ (best = none → row.1.total = 0)) ∨
          (busiest best row = some row ∧ 0 < row.1.total) := by
        cases best with
        | none =>
            by_cases hpos : 0 < row.1.total
            · exact Or.inr ⟨if_pos hpos, hpos⟩
            · exact Or.inl ⟨if_neg hpos, fun _ => Nat.eq_zero_of_not_pos hpos⟩
        | some top =>
            by_cases hlt : top.1.total < row.1.total
            · exact Or.inr ⟨if_pos hlt, Nat.zero_lt_of_lt hlt⟩
            · exact Or.inl ⟨if_neg hlt, fun hnone => by cases hnone⟩
      rw [List.foldl_cons]
      rcases hone with ⟨hkept, hzero⟩ | ⟨htaken, hpos⟩
      · rw [hkept]
        obtain ⟨hsome, hnone⟩ := ih best hbest
        constructor
        · intro top h
          obtain ⟨htop, hmem⟩ := hsome top h
          exact ⟨htop, hmem.imp_left (List.mem_cons_of_mem _)⟩
        · intro h
          obtain ⟨hbest, hrows⟩ := hnone h
          exact ⟨hbest, List.forall_mem_cons.mpr ⟨hzero hbest, hrows⟩⟩
      · rw [htaken]
        obtain ⟨hsome, hnone⟩ := ih (some row) (fun top h => by cases h; exact hpos)
        refine ⟨?_, fun h => by cases (hnone h).1⟩
        intro top h
        obtain ⟨htop, hmem⟩ := hsome top h
        refine ⟨htop, Or.inl ?_⟩
        rcases hmem with hmem | hrow
        · exact List.mem_cons_of_mem _ hmem
        · cases hrow
          exact List.mem_cons_self

/-- The literal to branch on has a variable that is counted. -/
theorem branch?_eq_some {size : Nat} {literals : List Literal} {l : Literal}
    (h : branch? (occurrences size literals) = some l) :
    l.var < size ∧ ∃ m ∈ literals, m.var = l.var := by
  obtain ⟨⟨count, v⟩, hbest, rfl⟩ := Option.map_eq_some_iff.mp h
  obtain ⟨hpos, hmem⟩ := (foldl_busiest _ none fun _ hnone => by cases hnone).1 _ hbest
  rcases hmem with hmem | hnone
  · obtain ⟨hlt, rfl⟩ := eq_of_mem_zipIdx_occurrences hmem
    refine ⟨hlt, ?_⟩
    rcases Nat.add_pos_iff_pos_or_pos.mp hpos with hpositive | hnegative
    · exact ⟨_, List.count_pos_iff.mp hpositive, rfl⟩
    · exact ⟨_, List.count_pos_iff.mp hnegative, rfl⟩
  · cases hnone

/-- Nothing is left to branch on only if nothing is counted. -/
theorem branch?_eq_none {size : Nat} {literals : List Literal}
    (h : branch? (occurrences size literals) = none) (hbound : ∀ l ∈ literals, l.var < size) :
    literals = [] := by
  rw [List.eq_nil_iff_forall_not_mem]
  intro l hl
  obtain ⟨_, hzero⟩ := (foldl_busiest _ none fun _ hnone => by cases hnone).2
    (Option.map_eq_none_iff.mp h)
  have hat : (_, l.var) ∈ (occurrences size literals).zipIdx :=
    List.mem_zipIdx_iff_getElem?.mpr (getElem?_occurrences literals (hbound l hl))
  have htotal := hzero _ hat
  have hpos : 0 < literals.count l := List.count_pos_iff.mpr hl
  obtain ⟨v, sign⟩ := l
  simp only [Count.total] at htotal
  cases sign <;> omega

end Elenchus.Search
