import Elenchus.Proofs.Clause.Expansion
import Elenchus.Proofs.Clause.Form

/-!
# The limit on the count of clauses

How many rows the expansion of a normal form has is a matter of the form alone
(`Normal.expansion`).  The limit does nothing to the expansion unless there are more than 4096 rows,
and then it is given up (`Formula.limited_lowered`).  The loops compare intermediate counts with the
limit, a partial sum after each conjunct and a partial product before each alternative is joined;
where they do so does not matter.  An intermediate count is never above the final one, since the
constants have been folded away and every part has a row (`Normal.Solid.expansion_pos`).
-/

namespace Elenchus

namespace Normal

/-! ## The count of the rows -/

mutual

/-- How many rows a normal form expands into. -/
def expansion : Normal → Nat
  | .literal _ => 1
  | .const true => 0
  | .const false => 1
  | .all parts => expansionSum parts
  | .any parts => expansionProduct parts

def expansionSum : List Normal → Nat
  | [] => 0
  | n :: ns => n.expansion + expansionSum ns

def expansionProduct : List Normal → Nat
  | [] => 1
  | n :: ns => n.expansion * expansionProduct ns

end

mutual

theorem expansion_shape : ∀ n : Normal, n.shape.expansion = n.expansion
  | .literal _ => rfl
  | .const _ => rfl
  | .all parts => (expansion_shapes parts).1
  | .any parts => (expansion_shapes parts).2

theorem expansion_shapes : ∀ parts : List Normal,
    expansionSum (shapes parts) = expansionSum parts ∧
      expansionProduct (shapes parts) = expansionProduct parts
  | [] => ⟨rfl, rfl⟩
  | n :: ns => by
      obtain ⟨hsum, hproduct⟩ := expansion_shapes ns
      exact ⟨by rw [shapes, expansionSum, expansion_shape n, hsum, expansionSum],
        by rw [shapes, expansionProduct, expansion_shape n, hproduct, expansionProduct]⟩

end

theorem expansionProduct_pos {parts : List Normal} (h : ∀ n ∈ parts, 0 < n.expansion) :
    0 < expansionProduct parts := by
  induction parts with
  | nil => exact Nat.one_pos
  | cons n ns ih =>
      exact Nat.mul_pos (h n List.mem_cons_self) (ih fun m hm => h m (List.mem_cons_of_mem n hm))

theorem Solid.expansion_pos {n : Normal} (h : n.Solid) : 0 < n.expansion := by
  induction h with
  | literal l => exact Nat.one_pos
  | @all parts hlength _ _ ih =>
      cases parts with
      | nil => exact absurd hlength (by decide)
      | cons n ns => exact Nat.add_pos_left (ih n List.mem_cons_self) _
  | any _ _ _ ih => exact expansionProduct_pos ih

theorem length_product (rows rows' : List (List Literal)) :
    (rows.flatMap fun left => rows'.map (left ++ ·)).length = rows.length * rows'.length := by
  simp only [List.length_flatMap, List.length_map, List.map_const', List.sum_replicate_nat]

mutual

theorem length_unlimited : ∀ n : Normal, n.unlimited.length = n.expansion
  | .literal _ => rfl
  | .const true => rfl
  | .const false => rfl
  | .all parts => (length_unlimitedParts parts).1
  | .any parts => (length_unlimitedParts parts).2

theorem length_unlimitedParts : ∀ parts : List Normal,
    (unlimitedAll parts).length = expansionSum parts ∧
      (unlimitedAny parts).length = expansionProduct parts
  | [] => ⟨rfl, rfl⟩
  | part :: parts => by
      obtain ⟨hsum, hproduct⟩ := length_unlimitedParts parts
      constructor
      · rw [unlimitedAll, List.length_append, length_unlimited part, hsum, expansionSum]
      · rw [unlimitedAny, length_product, length_unlimited part, hproduct, expansionProduct]

end

/-! ## The limit -/

/-- An expansion that has the given count of rows, or is given up because these are too many. -/
def Expands (size : Nat) : Except FormulaError (List (List Literal)) → Prop
  | .ok rows => rows.length = size ∧ size ≤ maxClauses
  | .error error => error = tooLarge ∧ maxClauses < size

theorem expands_all {parts : List Normal} (h : ∀ n ∈ parts, Expands n.expansion n.expand)
    {earlier : List (List Literal)} (hearlier : earlier.length ≤ maxClauses) :
    Expands (earlier.length + expansionSum parts) (expandAll earlier parts) := by
  induction parts generalizing earlier with
  | nil => exact ⟨rfl, hearlier⟩
  | cons part parts ih =>
      have hpart := h part List.mem_cons_self
      simp only [expandAll, expansionSum, bind, Except.bind]
      cases hexpand : part.expand with
      | error error =>
          rw [hexpand] at hpart
          exact ⟨hpart.1, by have := hpart.2; omega⟩
      | ok clauses =>
          rw [hexpand] at hpart
          have hlength : (earlier ++ clauses).length = earlier.length + part.expansion := by
            rw [List.length_append, hpart.1]
          dsimp only
          split
          · exact ⟨rfl, by omega⟩
          · rw [← Nat.add_assoc, ← hlength]
            exact ih (fun n hn => h n (List.mem_cons_of_mem part hn)) (by omega)

theorem expands_any {parts : List Normal} (h : ∀ n ∈ parts, Expands n.expansion n.expand)
    (hpos : ∀ n ∈ parts, 0 < n.expansion) {earlier : List (List Literal)}
    (hearlier : earlier.length ≤ maxClauses) (hsome : 0 < earlier.length) :
    Expands (earlier.length * expansionProduct parts) (expandAny earlier parts) := by
  induction parts generalizing earlier with
  | nil => exact ⟨(Nat.mul_one _).symm, by rwa [expansionProduct, Nat.mul_one]⟩
  | cons part parts ih =>
      have hpart := h part List.mem_cons_self
      have hpos' : ∀ n ∈ parts, 0 < n.expansion := fun n hn => hpos n (List.mem_cons_of_mem part hn)
      have hrest := expansionProduct_pos hpos'
      simp only [expandAny, expansionProduct, bind, Except.bind]
      rw [← Nat.mul_assoc]
      cases hexpand : part.expand with
      | error error =>
          rw [hexpand] at hpart
          refine ⟨hpart.1, ?_⟩
          calc maxClauses < part.expansion := hpart.2
            _ ≤ earlier.length * part.expansion := Nat.le_mul_of_pos_left _ hsome
            _ ≤ _ := Nat.le_mul_of_pos_right _ hrest
      | ok clauses =>
          rw [hexpand] at hpart
          dsimp only
          rw [hpart.1]
          split
          next hmany => exact ⟨rfl, Nat.lt_of_lt_of_le hmany (Nat.le_mul_of_pos_right _ hrest)⟩
          next hfew =>
            have hlength : (earlier.flatMap fun left => clauses.map (left ++ ·)).length =
                earlier.length * part.expansion := by
              rw [length_product, hpart.1]
            rw [← hlength]
            refine ih (fun n hn => h n (List.mem_cons_of_mem part hn)) hpos' ?_ ?_
            · omega
            · rw [hlength]
              exact Nat.mul_pos hsome (hpos part List.mem_cons_self)

theorem Solid.expands {n : Normal} (h : n.Solid) : Expands n.expansion n.expand := by
  induction h with
  | literal l => exact ⟨rfl, (by decide : 1 ≤ maxClauses)⟩
  | all _ _ _ ih =>
      rw [expansion, ← Nat.zero_add (expansionSum _)]
      exact expands_all ih (Nat.zero_le _)
  | any _ hsolid _ ih =>
      rw [expansion, ← Nat.one_mul (expansionProduct _)]
      exact expands_any ih (fun n hn => (hsolid n hn).expansion_pos) (by decide) Nat.one_pos

/-- The expansion of a folded form is given up exactly when it has too many rows. -/
theorem Folded.expands {n : Normal} (h : n.Folded) : Expands n.expansion n.expand := by
  cases h with
  | const value => cases value <;> exact ⟨rfl, by decide⟩
  | solid h => exact h.expands

/-- The limit fires exactly when there are more than 4096 rows, and otherwise does nothing. -/
structure Limited (n : Normal) : Prop where
  refused : n.clauses = .error (.tooLarge 4096) ↔ 4096 < n.expansion
  clauses_eq : n.clauses =
    if 4096 < n.unlimited.length then .error (.tooLarge 4096) else .ok n.unlimitedClauses

theorem Folded.limited {n : Normal} (h : n.Folded) : n.Limited := by
  have hexpands := h.expands
  have heq : n.clauses =
      if 4096 < n.unlimited.length then .error (.tooLarge 4096) else .ok n.unlimitedClauses := by
    rw [length_unlimited]
    cases hexpand : n.expand with
    | error error =>
        rw [hexpand] at hexpands
        rw [if_pos (show 4096 < n.expansion from hexpands.2), clauses, hexpand, hexpands.1]
        rfl
    | ok rows =>
        rw [hexpand] at hexpands
        have hfew : ¬4096 < n.expansion := Nat.not_lt.mpr hexpands.2
        rw [if_neg hfew, clauses, hexpand, eq_unlimited_of_expand n hexpand]
        rfl
  refine ⟨?_, heq⟩
  rw [heq, length_unlimited]
  split
  next hmany => exact iff_of_true rfl hmany
  next hfew => exact iff_of_false (fun hok => by cases hok) hfew

theorem Folded.clauses_cases {n : Normal} (h : n.Folded) :
    (n.expansion ≤ maxClauses ∧ ∃ cs, n.clauses = .ok cs) ∨
      (maxClauses < n.expansion ∧ n.clauses = .error tooLarge) := by
  have hclauses := h.limited.clauses_eq
  rw [length_unlimited] at hclauses
  by_cases hmany : 4096 < n.expansion
  · exact .inr ⟨hmany, hclauses.trans (if_pos hmany)⟩
  · exact .inl ⟨Nat.not_lt.mp hmany, _, hclauses.trans (if_neg hmany)⟩

end Normal

namespace Formula

/-! ## Formulas -/

/-- How many rows a formula expands into. -/
def rows (f : Formula) : Nat := (f.lower true .empty).1.expansion

/-- How many rows the definition of a variable as a formula expands into. -/
def definitionRows (f : Formula) : Nat := (f.definitionNormal 0 .empty).1.expansion

/-- A formula is stated unless it has too many rows, whatever the table holds. -/
theorem clauses_cases (f : Formula) (table : VarTable) :
    (f.rows ≤ maxClauses ∧ ∃ cs, (f.clauses table).1 = .ok cs) ∨
      (maxClauses < f.rows ∧ (f.clauses table).1 = .error Normal.tooLarge) := by
  have hrows : f.rows = (f.lower true table).1.expansion := by
    rw [rows, ← Normal.expansion_shape, f.shape_lower true .empty table, Normal.expansion_shape]
  rw [hrows]
  exact (f.folded_lower true table).clauses_cases

theorem definition_cases (f : Formula) (v : Nat) (table : VarTable) :
    (f.definitionRows ≤ maxClauses ∧ ∃ cs, (f.definition v table).1 = .ok cs) ∨
      (maxClauses < f.definitionRows ∧ (f.definition v table).1 = .error Normal.tooLarge) := by
  have hrows : f.definitionRows = (f.definitionNormal v table).1.expansion := by
    rw [definitionRows, ← Normal.expansion_shape, f.shape_definitionNormal 0 v .empty table,
      Normal.expansion_shape]
  rw [hrows]
  exact (f.folded_definitionNormal v table).clauses_cases

/-- The expansion of a formula, of its negation and of a definition is given up exactly when it has
too many rows. -/
theorem limited_lowered (f : Formula) (table : VarTable) :
    (∀ positive, (f.lower positive table).1.Limited) ∧
      ∀ v, (f.definitionNormal v table).1.Limited :=
  ⟨fun positive => (f.folded_lower positive table).limited,
    fun v => (f.folded_definitionNormal v table).limited⟩

end Formula

end Elenchus
