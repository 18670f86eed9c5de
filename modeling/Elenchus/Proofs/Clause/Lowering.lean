import Elenchus.Clause.Normal
import Elenchus.Proofs.Clause.VarTable

/-!
# Lowering keeps the meaning

A formula and its normal form are true under the same assignments (`Formula.holds_lower`), once the
assignment gives each atom's variable the value of the atom (`VarTable.Reads`).  The table may have
grown since: a lowering moves no name, and what is asked for later changes nothing.
-/

namespace Elenchus

/-- An assignment reads a valuation of the atoms: every atom in the table has its value. -/
def VarTable.Reads (table : VarTable) (a : Assignment) (value : String → Bool) : Prop :=
  ∀ text v, table.find? (.atom text) = some v → a v = value text

/-- The value that an assignment gives to an atom; one that has no variable is false. -/
def VarTable.atomValue (table : VarTable) (a : Assignment) (text : String) : Bool :=
  (table.find? (.atom text)).elim false a

theorem VarTable.reads_atomValue (table : VarTable) (a : Assignment) :
    table.Reads a (table.atomValue a) := by
  intro text v h
  rw [atomValue, h]
  rfl

namespace Normal

/-! ## Meaning -/

section
variable (a : Assignment)

theorem allHold_eq (parts : List Normal) : allHold a parts = parts.all (holds a) := by
  induction parts with
  | nil => rfl
  | cons n ns ih => rw [allHold, ih, List.all_cons]

theorem anyHolds_eq (parts : List Normal) : anyHolds a parts = parts.any (holds a) := by
  induction parts with
  | nil => rfl
  | cons n ns ih => rw [anyHolds, ih, List.any_cons]

@[simp] theorem holds_all (parts : List Normal) :
    (all parts).holds a = parts.all (holds a) := by
  rw [holds, allHold_eq]

@[simp] theorem holds_any (parts : List Normal) :
    (any parts).holds a = parts.any (holds a) := by
  rw [holds, anyHolds_eq]

end

theorem isConst_iff {value : Bool} {n : Normal} : n.isConst value = true ↔ n = .const value := by
  cases n <;> simp [isConst]

section
variable (a : Assignment)

theorem all_conjuncts {n : Normal} (h : n ≠ .const false) :
    n.conjuncts.all (holds a) = n.holds a := by
  cases n with
  | const b =>
      cases b with
      | false => exact absurd rfl h
      | true => rfl
  | all parts => rw [holds_all, conjuncts]
  | literal l => simp [conjuncts]
  | any parts => simp [conjuncts]

theorem any_alternatives {n : Normal} (h : n ≠ .const true) :
    n.alternatives.any (holds a) = n.holds a := by
  cases n with
  | const b =>
      cases b with
      | false => rfl
      | true => exact absurd rfl h
  | any parts => rw [holds_any, alternatives]
  | literal l => simp [alternatives]
  | all parts => simp [alternatives]

theorem all_flatMap_conjuncts {parts : List Normal} (h : ∀ n ∈ parts, n ≠ .const false) :
    (parts.flatMap conjuncts).all (holds a) = parts.all (holds a) := by
  induction parts with
  | nil => rfl
  | cons n ns ih =>
      rw [List.flatMap_cons, List.all_append, List.all_cons,
        all_conjuncts a (h n List.mem_cons_self), ih fun m hm => h m (List.mem_cons_of_mem n hm)]

theorem any_flatMap_alternatives {parts : List Normal} (h : ∀ n ∈ parts, n ≠ .const true) :
    (parts.flatMap alternatives).any (holds a) = parts.any (holds a) := by
  induction parts with
  | nil => rfl
  | cons n ns ih =>
      rw [List.flatMap_cons, List.any_append, List.any_cons,
        any_alternatives a (h n List.mem_cons_self), ih fun m hm => h m (List.mem_cons_of_mem n hm)]

theorem holds_allOf (parts : List Normal) : (allOf parts).holds a = parts.all (holds a) := by
  unfold allOf
  split
  next hfalse =>
    obtain ⟨n, hn, hconst⟩ := List.any_eq_true.mp hfalse
    rw [isConst_iff.mp hconst] at hn
    exact (List.all_eq_false.mpr ⟨_, hn, Bool.false_ne_true⟩).symm
  next hfalse =>
    have hparts : ∀ n ∈ parts, n ≠ .const false := by
      rintro n hn rfl
      exact hfalse (List.any_eq_true.mpr ⟨_, hn, isConst_iff.mpr rfl⟩)
    rw [← all_flatMap_conjuncts a hparts]
    split
    next h => rw [h]; rfl
    next n h => simp [h]
    next => rw [holds_all]

theorem holds_anyOf (parts : List Normal) : (anyOf parts).holds a = parts.any (holds a) := by
  unfold anyOf
  split
  next htrue =>
    obtain ⟨n, hn, hconst⟩ := List.any_eq_true.mp htrue
    rw [isConst_iff.mp hconst] at hn
    exact (List.any_eq_true.mpr ⟨_, hn, rfl⟩).symm
  next htrue =>
    have hparts : ∀ n ∈ parts, n ≠ .const true := by
      rintro n hn rfl
      exact htrue (List.any_eq_true.mpr ⟨_, hn, isConst_iff.mpr rfl⟩)
    rw [← any_flatMap_alternatives a hparts]
    split
    next h => rw [h]; rfl
    next n h => simp [h]
    next => rw [holds_any]

theorem holds_allOf_pair (p q : Normal) :
    (allOf [p, q]).holds a = (p.holds a && q.holds a) := by
  rw [holds_allOf, List.all_cons, List.all_cons, List.all_nil, Bool.and_true]

theorem holds_anyOf_pair (p q : Normal) :
    (anyOf [p, q]).holds a = (p.holds a || q.holds a) := by
  rw [holds_anyOf, List.any_cons, List.any_cons, List.any_nil, Bool.or_false]

end

end Normal

namespace Formula

/-! ## The table -/

/-- Lowering asks the table for names, and does nothing else to it. -/
theorem lower_table (f : Formula) (positive : Bool) {table : VarTable} (h : table.Distinct) :
    (f.lower positive table).2.Distinct ∧ table.Extends (f.lower positive table).2 := by
  induction f generalizing positive table with
  | atom text => exact ⟨h.intern _, VarTable.extends_intern _ _⟩
  | const value => exact ⟨h, .refl table⟩
  | not f ih => exact ih (!positive) h
  | binary c f g ihf ihg =>
      have both : ∀ p q, (g.lower q (f.lower p table).2).2.Distinct ∧
          table.Extends (g.lower q (f.lower p table).2).2 := by
        intro p q
        have hf := ihf p h
        have hg := ihg q hf.1
        exact ⟨hg.1, hf.2.trans hg.2⟩
      cases c with
      | and => exact both positive positive
      | or => exact both positive positive
      | implies => exact both (!positive) positive
      | iff =>
          have first := both (!positive) true
          have hf := ihf positive first.1
          have hg := ihg false hf.1
          exact ⟨hg.1, first.2.trans (hf.2.trans hg.2)⟩

/-- Lowering takes no variable away from a name. -/
theorem keeps_lower (f : Formula) (positive : Bool) (table : VarTable) :
    table.Keeps (f.lower positive table).2 := by
  induction f generalizing positive table with
  | atom text => exact table.keeps_intern _
  | const value => exact .refl table
  | not f ih => exact ih (!positive) table
  | binary c f g ihf ihg =>
      have both : ∀ p q (table : VarTable), table.Keeps (g.lower q (f.lower p table).2).2 :=
        fun p q table => (ihf p table).trans (ihg q _)
      cases c with
      | and => exact both positive positive table
      | or => exact both positive positive table
      | implies => exact both (!positive) positive table
      | iff => exact (both (!positive) true table).trans (both positive false _)

/-! ## Meaning -/

section
variable {table later : VarTable} {a : Assignment} {value : String → Bool}

/-- The normal form of a formula, or of its negation, is true exactly when the formula has that
value. -/
theorem holds_lower (f : Formula) (positive : Bool)
    (hkeeps : (f.lower positive table).2.Keeps later) (hreads : later.Reads a value) :
    (f.lower positive table).1.holds a = (f.eval value == positive) := by
  induction f generalizing positive table with
  | atom text =>
      have hfind := hkeeps _ _ (table.find?_intern (.atom text))
      show (a (table.intern (.atom text)).1 == positive) = (value text == positive)
      rw [hreads text _ hfind]
  | const value => rfl
  | not f ih =>
      rw [lower, eval, ih (!positive) hkeeps]
      cases f.eval value <;> cases positive <;> rfl
  | binary c f g ihf ihg =>
      -- Two operands that are lowered one after the other, whatever the table then is.
      have both : ∀ {table : VarTable} (p q : Bool),
          (g.lower q (f.lower p table).2).2.Keeps later →
          (f.lower p table).1.holds a = (f.eval value == p) ∧
          (g.lower q (f.lower p table).2).1.holds a = (g.eval value == q) :=
        fun p q h => ⟨ihf p ((g.keeps_lower q _).trans h), ihg q h⟩
      cases c with
      | and =>
          obtain ⟨hf, hg⟩ := both positive positive hkeeps
          change (if positive then Normal.allOf [_, _] else Normal.anyOf [_, _]).holds a =
            ((f.eval value && g.eval value) == positive)
          rw [apply_ite (Normal.holds a), Normal.holds_allOf_pair, Normal.holds_anyOf_pair, hf, hg]
          cases positive <;> cases f.eval value <;> cases g.eval value <;> rfl
      | or =>
          obtain ⟨hf, hg⟩ := both positive positive hkeeps
          change (if positive then Normal.anyOf [_, _] else Normal.allOf [_, _]).holds a =
            ((f.eval value || g.eval value) == positive)
          rw [apply_ite (Normal.holds a), Normal.holds_allOf_pair, Normal.holds_anyOf_pair, hf, hg]
          cases positive <;> cases f.eval value <;> cases g.eval value <;> rfl
      | implies =>
          obtain ⟨hf, hg⟩ := both (!positive) positive hkeeps
          change (if positive then Normal.anyOf [_, _] else Normal.allOf [_, _]).holds a =
            ((!f.eval value || g.eval value) == positive)
          rw [apply_ite (Normal.holds a), Normal.holds_allOf_pair, Normal.holds_anyOf_pair, hf, hg]
          cases positive <;> cases f.eval value <;> cases g.eval value <;> rfl
      | iff =>
          let first := (g.lower true (f.lower (!positive) table).2).2
          have hlater : first.Keeps (g.lower false (f.lower positive first).2).2 :=
            (f.keeps_lower positive first).trans (g.keeps_lower false _)
          obtain ⟨hf, hg⟩ := both (!positive) true (hlater.trans hkeeps)
          obtain ⟨hf', hg'⟩ := both positive false hkeeps
          change (Normal.allOf [Normal.anyOf [_, _], Normal.anyOf [_, _]]).holds a =
            ((f.eval value == g.eval value) == positive)
          rw [Normal.holds_allOf_pair, Normal.holds_anyOf_pair, Normal.holds_anyOf_pair, hf, hg,
            hf', hg']
          cases positive <;> cases f.eval value <;> cases g.eval value <;> rfl

end

end Formula

end Elenchus
