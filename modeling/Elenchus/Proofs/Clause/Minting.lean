import Elenchus.Clause.Expansion
import Elenchus.Proofs.Clause.Lowering

/-!
# Atoms get their variables in reading order

Lowering goes through a formula on a way of its own: it comes to the operands of `↔` twice, in both
polarities, and folds constants only after it has been to them.  All the same it leaves the table as
if the atoms had been asked for in the order in which they are read (`Formula.lower_eq_internAll`),
since what comes a second time is known.  And asking for the occurrences one by one puts the atoms
that are new to the table behind it, each at its first occurrence (`VarTable.internAll_atoms`), in
step with the list `Formula.atoms`, which is kept in the same way.

So the table after a lowering, or after a definition, is known from the formula and the table before
(`Formula.minted_lowered`), whether or not the expansion into clauses is given up.
-/

namespace Elenchus

namespace VarTable

/-- A table with those atoms of a list behind it that it did not hold, in the order of the list.  A
proposition of the same text is not the atom. -/
def withAtoms (table : VarTable) (atoms : List String) : VarTable :=
  ⟨table.names ++ ((atoms.map VarName.atom).filter (· ∉ table.names)).toArray⟩

variable {table : VarTable}

theorem mem_withAtoms {atoms : List String} {name : VarName} :
    name ∈ (table.withAtoms atoms).names ↔
      name ∈ table.names ∨ ∃ text ∈ atoms, .atom text = name := by
  simp only [withAtoms, Array.mem_append, List.mem_toArray, List.mem_filter, List.mem_map,
    decide_eq_true_eq]
  exact or_and_left.trans (and_iff_left (Decidable.em _))

/-- One more occurrence does to the table what it does to the list of the atoms seen so far. -/
theorem intern_withAtoms (table : VarTable) (seen : List String) (text : String) :
    ((table.withAtoms seen).intern (.atom text)).2 =
      table.withAtoms (if text ∈ seen then seen else seen ++ [text]) := by
  by_cases hseen : text ∈ seen
  · rw [if_pos hseen]
    exact intern_of_mem (mem_withAtoms.mpr (.inr ⟨text, hseen, rfl⟩))
  rw [if_neg hseen]
  by_cases hknown : VarName.atom text ∈ table.names
  · rw [intern_of_mem (mem_withAtoms.mpr (.inl hknown))]
    simp [withAtoms, hknown]
  · have hnew : VarName.atom text ∉ (table.withAtoms seen).names := by
      simp [mem_withAtoms, hknown, hseen]
    rw [intern_of_not_mem hnew]
    simp [withAtoms, hknown]

/-- The occurrences of atoms in a formula, asked for in order. -/
theorem internAll_atoms (table : VarTable) (f : Formula) :
    table.internAll (f.atomOccurrences.map .atom) = table.withAtoms f.atoms := by
  have hrun : f.atomOccurrences.foldl (fun later text => (later.intern (.atom text)).2)
      (table.withAtoms []) = table.withAtoms f.atoms :=
    List.foldl_hom table.withAtoms fun seen text => table.intern_withAtoms seen text
  have hstart : table.withAtoms [] = table := by simp [withAtoms]
  rw [internAll, List.foldl_map, ← hrun, hstart]

end VarTable

namespace Formula

theorem lower_eq_internAll (f : Formula) (positive : Bool) (table : VarTable) :
    (f.lower positive table).2 = table.internAll (f.atomOccurrences.map .atom) := by
  induction f generalizing positive table with
  | atom text => rfl
  | const value => rfl
  | not f ih => exact ih (!positive) table
  | binary c f g ihf ihg =>
      have both : ∀ p q (table : VarTable), (g.lower q (f.lower p table).2).2 =
          table.internAll ((f.atomOccurrences ++ g.atomOccurrences).map .atom) := by
        intro p q table
        rw [ihg, ihf, List.map_append, VarTable.internAll_append]
      cases c with
      | and => exact both positive positive table
      | or => exact both positive positive table
      | implies => exact both (!positive) positive table
      | iff =>
          show (g.lower false (f.lower positive
            (g.lower true (f.lower (!positive) table).2).2).2).2 = _
          rw [both, both, VarTable.internAll_internAll, atomOccurrences]

theorem lower_eq_withAtoms (f : Formula) (positive : Bool) (table : VarTable) :
    (f.lower positive table).2 = table.withAtoms f.atoms := by
  rw [lower_eq_internAll, VarTable.internAll_atoms]

/-- A definition lowers the formula twice. -/
theorem definition_eq_withAtoms (f : Formula) (v : Nat) (table : VarTable) :
    (f.definition v table).2 = table.withAtoms f.atoms := by
  show (f.lower false (f.lower true table).2).2 = _
  rw [lower_eq_internAll, lower_eq_internAll, VarTable.internAll_internAll,
    VarTable.internAll_atoms]

/-- In a table that is built by asking for names these are different, a name is found exactly where
it stands, and what is asked for later moves none: the variable that is given for a name is the one
found for it ever after.  To lower a formula, to state it or to define a variable by it puts those
of its atoms that are new behind the table, in the order of their first occurrence, and no atom has
the variable of a proposition. -/
theorem minted_lowered :
    (∀ names : List VarName,
      let table := VarTable.empty.internAll names
      table.Distinct ∧ (∀ name v, table.find? name = some v ↔ table.name? v = some name) ∧
        (∀ more, table.Extends (table.internAll more) ∧ table.Keeps (table.internAll more)) ∧
        ∀ name more,
          ((table.intern name).2.internAll more).find? name = some (table.intern name).1) ∧
    ∀ (f : Formula) (table : VarTable),
      let later := table.withAtoms f.atoms
      (∀ positive, (f.lower positive table).2 = later ∧ (f.clausesOf positive table).2 = later) ∧
        (∀ v, (f.definition v table).2 = later) ∧
        ∀ text ∈ f.atoms, ∃ v, later.find? (.atom text) = some v ∧
          ∀ id, later.find? (.proposition id) ≠ some v := by
  constructor
  · intro names table
    have hdistinct : table.Distinct :=
      VarTable.Distinct.internAll (show VarTable.empty.Distinct from List.nodup_nil) names
    refine ⟨hdistinct, fun name v => VarTable.find?_eq_some_iff hdistinct, fun more => ?_, ?_⟩
    · exact ⟨table.extends_internAll more, table.keeps_internAll more⟩
    · intro name more
      exact (table.intern name).2.keeps_internAll more _ _ (table.find?_intern name)
  · intro f table later
    refine ⟨fun positive => ?_, fun v => f.definition_eq_withAtoms v table, ?_⟩
    · exact ⟨f.lower_eq_withAtoms positive table, f.lower_eq_withAtoms positive table⟩
    · intro text htext
      have hmem : VarName.atom text ∈ later.names :=
        VarTable.mem_withAtoms.mpr (.inr ⟨text, htext, rfl⟩)
      obtain ⟨v, hfind⟩ := VarTable.exists_find? hmem
      exact ⟨v, hfind, fun id hid => VarName.noConfusion (VarTable.find?_inj hfind hid)⟩

end Formula

end Elenchus
