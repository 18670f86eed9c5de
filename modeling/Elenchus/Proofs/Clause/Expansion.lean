import Elenchus.Clause.Expansion
import Elenchus.Proofs.Clause.Lowering

/-!
# What an expansion into clauses says

An expansion that is not given up has the rows that the normal form has without a limit
(`Normal.unlimited`).  Those say what the normal form says (`Normal.rowsHold_unlimited`), and so do
the clauses that are made of them, since dropping tautologies and repetitions changes nothing
(`Normal.satisfies_of_clauses`).  So the clauses of a formula are true together exactly when it is,
and those of a definition exactly when the variable has the value of the formula.
-/

namespace Elenchus

namespace Normal

/-! ## Rows -/

mutual

/-- The rows that a normal form expands into, however many. -/
def unlimited : Normal → List (List Literal)
  | .literal l => [[l]]
  | .const true => []
  | .const false => [[]]
  | .all parts => unlimitedAll parts
  | .any parts => unlimitedAny parts

def unlimitedAll : List Normal → List (List Literal)
  | [] => []
  | part :: parts => part.unlimited ++ unlimitedAll parts

def unlimitedAny : List Normal → List (List Literal)
  | [] => [[]]
  | part :: parts => part.unlimited.flatMap fun left => (unlimitedAny parts).map (left ++ ·)

end

/-- Rows are multiplied out from the left or from the right with the same result. -/
theorem product_assoc (first second third : List (List Literal)) :
    ((first.flatMap fun left => second.map (left ++ ·)).flatMap fun left => third.map (left ++ ·)) =
      first.flatMap fun left =>
        (second.flatMap fun middle => third.map (middle ++ ·)).map (left ++ ·) := by
  rw [List.flatMap_assoc]
  congr 1
  funext left
  simp only [List.flatMap_map, List.map_flatMap, List.map_map, Function.comp_def, List.append_assoc]

mutual

/-- An expansion that is not given up has the rows of the one without a limit. -/
theorem eq_unlimited_of_expand : ∀ (n : Normal) {rows : List (List Literal)},
    n.expand = .ok rows → rows = n.unlimited
  | .literal l, _, h => by
      cases h
      rfl
  | .const true, _, h => by
      cases h
      rfl
  | .const false, _, h => by
      cases h
      rfl
  | .all parts, _, h => by
      rw [unlimited, eq_of_expandAll parts h, List.nil_append]
  | .any parts, _, h => by
      rw [unlimited, eq_of_expandAny parts h]
      simp

theorem eq_of_expandAll : ∀ (parts : List Normal) {earlier rows : List (List Literal)},
    expandAll earlier parts = .ok rows → rows = earlier ++ unlimitedAll parts
  | [], _, _, h => by
      cases h
      exact (List.append_nil _).symm
  | part :: parts, earlier, rows, h => by
      cases hpart : part.expand with
      | error error => simp [expandAll, hpart, bind, Except.bind] at h
      | ok clauses =>
          simp only [expandAll, hpart, bind, Except.bind] at h
          split at h
          · cases h
          · rw [eq_of_expandAll parts h, eq_unlimited_of_expand part hpart, unlimitedAll,
              List.append_assoc]

theorem eq_of_expandAny : ∀ (parts : List Normal) {earlier rows : List (List Literal)},
    expandAny earlier parts = .ok rows →
    rows = earlier.flatMap fun left => (unlimitedAny parts).map (left ++ ·)
  | [], _, _, h => by
      cases h
      simp [unlimitedAny]
  | part :: parts, earlier, rows, h => by
      cases hpart : part.expand with
      | error error => simp [expandAny, hpart, bind, Except.bind] at h
      | ok clauses =>
          simp only [expandAny, hpart, bind, Except.bind] at h
          split at h
          · cases h
          · rw [eq_of_expandAny parts h, eq_unlimited_of_expand part hpart, unlimitedAny,
              product_assoc]

end

/-- The clauses of a normal form if there were no limit. -/
def unlimitedClauses (n : Normal) : List Clause :=
  distinct ((n.unlimited.map Clause.ofList).filter (!·.isTautology))

theorem eq_unlimitedClauses {n : Normal} {cs : List Clause} (h : n.clauses = .ok cs) :
    cs = n.unlimitedClauses := by
  cases hrows : n.expand with
  | error error => simp [clauses, hrows, bind, Except.bind] at h
  | ok rows =>
      simp only [clauses, hrows, bind, Except.bind, pure, Except.pure, Except.ok.injEq] at h
      rw [← h, unlimitedClauses, eq_unlimited_of_expand n hrows]

/-! ## Meaning -/

/-- Whether each of some rows of literals has one that holds. -/
def rowsHold (a : Assignment) (rows : List (List Literal)) : Bool :=
  rows.all (·.any (Literal.holds a))

section
variable (a : Assignment)

theorem rowsHold_append (rows rows' : List (List Literal)) :
    rowsHold a (rows ++ rows') = (rowsHold a rows && rowsHold a rows') := List.all_append

/-- Every row of one list joined to every row of another states the disjunction of the two. -/
theorem rowsHold_product (rows rows' : List (List Literal)) :
    rowsHold a (rows.flatMap fun left => rows'.map (left ++ ·)) =
      (rowsHold a rows || rowsHold a rows') := by
  induction rows with
  | nil => rfl
  | cons left rows ih =>
      have hleft : rowsHold a (rows'.map (left ++ ·)) =
          (left.any (Literal.holds a) || rowsHold a rows') := by
        simp only [rowsHold, List.all_map, Function.comp_def, List.any_append]
        cases left.any (Literal.holds a) <;> simp
      rw [List.flatMap_cons, rowsHold_append, hleft, ih, rowsHold, rowsHold, rowsHold,
        List.all_cons]
      exact (Bool.or_and_distrib_right _ _ _).symm

mutual

/-- The rows of a normal form say what it says. -/
theorem rowsHold_unlimited : ∀ n : Normal, rowsHold a n.unlimited = n.holds a
  | .literal l => by simp [unlimited, rowsHold, holds]
  | .const true => rfl
  | .const false => rfl
  | .all parts => by rw [unlimited, (rowsHold_unlimitedParts parts).1, holds]
  | .any parts => by rw [unlimited, (rowsHold_unlimitedParts parts).2, holds]

theorem rowsHold_unlimitedParts : ∀ parts : List Normal,
    rowsHold a (unlimitedAll parts) = allHold a parts ∧
      rowsHold a (unlimitedAny parts) = anyHolds a parts
  | [] => ⟨rfl, rfl⟩
  | part :: parts => by
      obtain ⟨hall, hany⟩ := rowsHold_unlimitedParts parts
      constructor
      · rw [unlimitedAll, rowsHold_append, rowsHold_unlimited part, hall, allHold]
      · rw [unlimitedAny, rowsHold_product, rowsHold_unlimited part, hany, anyHolds]

end

theorem holds_ofList (literals : List Literal) :
    (Clause.ofList literals).holds a = literals.any (Literal.holds a) := by
  rw [Bool.eq_iff_iff, Clause.holds, List.any_eq_true, List.any_eq_true]
  exact exists_congr fun l => and_congr_left' Clause.mem_ofList

theorem holds_of_isTautology {c : Clause} (h : c.isTautology = true) : c.holds a = true := by
  obtain ⟨l, hl, hnegate⟩ := List.any_eq_true.mp h
  cases hholds : l.holds a with
  | true => exact List.any_eq_true.mpr ⟨l, hl, hholds⟩
  | false =>
      refine List.any_eq_true.mpr ⟨l.negate, of_decide_eq_true hnegate, ?_⟩
      rw [Literal.holds_negate, hholds]
      rfl

/-- The clauses of a normal form are true together exactly when it is. -/
theorem satisfies_of_clauses {n : Normal} {cs : List Clause} (h : n.clauses = .ok cs) :
    a.satisfies cs ↔ n.holds a = true := by
  rw [eq_unlimitedClauses h, ← rowsHold_unlimited, rowsHold, List.all_eq_true,
    Assignment.satisfies]
  simp only [unlimitedClauses, distinct_eq_eraseDups, List.mem_eraseDups, List.mem_filter,
    List.mem_map]
  constructor
  · intro hall row hrow
    rw [← holds_ofList]
    by_cases htautology : (Clause.ofList row).isTautology = true
    · exact holds_of_isTautology a htautology
    · exact hall _ ⟨⟨row, hrow, rfl⟩, by simpa using htautology⟩
  · rintro hall c ⟨⟨row, hrow, rfl⟩, _⟩
    rw [holds_ofList]
    exact hall row hrow

end

end Normal

namespace Formula

/-! ## Formulas -/

section
variable {table later : VarTable} {a : Assignment} {value : String → Bool} {cs : List Clause}

/-- The clauses of a formula are true together exactly when it is. -/
theorem satisfies_of_clauses (f : Formula) (hkeeps : (f.clauses table).2.Keeps later)
    (hreads : later.Reads a value) (h : (f.clauses table).1 = .ok cs) :
    a.satisfies cs ↔ f.eval value = true := by
  rw [Normal.satisfies_of_clauses a h, f.holds_lower true hkeeps hreads, beq_true]

theorem definition_table (f : Formula) (v : Nat) (h : table.Distinct) :
    (f.definition v table).2.Distinct ∧ table.Extends (f.definition v table).2 := by
  have hfirst := f.lower_table true h
  have hsecond := f.lower_table false hfirst.1
  exact ⟨hsecond.1, hfirst.2.trans hsecond.2⟩

/-- The clauses that define a variable are true together exactly when it has the value of the
formula. -/
theorem satisfies_of_definition (f : Formula) (v : Nat)
    (hkeeps : (f.definition v table).2.Keeps later) (hreads : later.Reads a value)
    (h : (f.definition v table).1 = .ok cs) : a.satisfies cs ↔ a v = f.eval value := by
  have htrue := f.holds_lower true ((f.keeps_lower false _).trans hkeeps) hreads
  have hfalse := f.holds_lower false hkeeps hreads
  rw [Normal.satisfies_of_clauses a h]
  change (Normal.allOf [Normal.anyOf [_, _], Normal.anyOf [_, _]]).holds a = true ↔ _
  rw [Normal.holds_allOf_pair, Normal.holds_anyOf_pair, Normal.holds_anyOf_pair, htrue, hfalse,
    Normal.holds, Normal.holds, Literal.holds, Literal.holds]
  cases a v <;> cases f.eval value <;> simp

end

end Formula

end Elenchus
