import Elenchus.Clause.VarTable

/-!
# The laws of variable tables

A table that is built by asking for names gives no name twice (`VarTable.Distinct`), so a name has
the variable `v` exactly when it stands at position `v` (`find?_eq_some_iff`).  Asking for a name
moves no other: every table that is reached extends the one before (`VarTable.Extends`), and a name
that has a variable keeps it (`VarTable.Keeps`), whatever the table.  To ask a second time for the
same names adds none (`internAll_internAll`).
-/

namespace Elenchus

namespace VarTable

/-- No name stands in the table twice. -/
def Distinct (table : VarTable) : Prop := table.names.toList.Nodup

/-- What stands in the first table stands in the second one, at the same place. -/
def Extends (table later : VarTable) : Prop :=
  ∀ v name, table.name? v = some name → later.name? v = some name

/-- What is found in the first table is found in the second one, with the same variable. -/
def Keeps (table later : VarTable) : Prop :=
  ∀ name v, table.find? name = some v → later.find? name = some v

theorem Extends.refl (table : VarTable) : table.Extends table := fun _ _ h => h

theorem Extends.trans {first second third : VarTable} (h : first.Extends second)
    (h' : second.Extends third) : first.Extends third :=
  fun v name hname => h' v name (h v name hname)

theorem Keeps.refl (table : VarTable) : table.Keeps table := fun _ _ h => h

theorem Keeps.trans {first second third : VarTable} (h : first.Keeps second)
    (h' : second.Keeps third) : first.Keeps third :=
  fun name v hfind => h' name v (h name v hfind)

variable {table later : VarTable} {name : VarName} {v : Nat}

theorem find?_eq (table : VarTable) (name : VarName) :
    table.find? name = table.names.toList.idxOf? name := by
  rw [find?, ← List.idxOf?_toArray, Array.toArray_toList]

theorem name?_of_find? (h : table.find? name = some v) : table.name? v = some name := by
  rw [find?_eq, List.idxOf?_eq_some_iff] at h
  obtain ⟨hv, heq, _⟩ := h
  rw [name?, ← Array.getElem?_toList, List.getElem?_eq_getElem hv, heq]

theorem find?_eq_none_iff : table.find? name = none ↔ name ∉ table.names :=
  Array.idxOf?_eq_none_iff

theorem mem_of_find? (h : table.find? name = some v) : name ∈ table.names :=
  Array.mem_of_getElem? (name?_of_find? h)

theorem exists_find? (h : name ∈ table.names) : ∃ v, table.find? name = some v :=
  Option.ne_none_iff_exists'.mp fun hnone => find?_eq_none_iff.mp hnone h

/-- Different names have different variables. -/
theorem find?_inj {other : VarName} (h : table.find? name = some v)
    (hother : table.find? other = some v) : name = other :=
  Option.some.inj ((name?_of_find? h).symm.trans (name?_of_find? hother))

/-- In a table without repetitions a name is found exactly where it stands. -/
theorem find?_eq_some_iff (hdistinct : table.Distinct) :
    table.find? name = some v ↔ table.name? v = some name := by
  refine ⟨name?_of_find?, fun h => ?_⟩
  cases hfind : table.find? name with
  | none => exact absurd (Array.mem_of_getElem? h) (find?_eq_none_iff.mp hfind)
  | some w =>
      have hw : table.names.toList[w]? = some name := by
        rw [Array.getElem?_toList]
        exact name?_of_find? hfind
      have hv : table.names.toList[v]? = some name := by
        rw [Array.getElem?_toList]
        exact h
      have hlt : w < table.names.toList.length := (List.getElem?_eq_some_iff.mp hw).1
      rw [(List.getElem?_inj hlt hdistinct).mp (hw.trans hv.symm)]

theorem Extends.keeps (hlater : later.Distinct) (h : table.Extends later) : table.Keeps later :=
  fun name v hfind => (find?_eq_some_iff hlater).mpr (h v name (name?_of_find? hfind))

/-! ## Asking for a name -/

/-- A name that is known has its variable, and the table stays; any other name is put at the end. -/
theorem intern_cases (table : VarTable) (name : VarName) :
    (∃ v, table.find? name = some v ∧ table.intern name = (v, table)) ∨
      table.find? name = none ∧ table.intern name = (table.size, ⟨table.names.push name⟩) := by
  unfold intern
  cases table.find? name with
  | none => exact .inr ⟨rfl, rfl⟩
  | some v => exact .inl ⟨v, rfl, rfl⟩

theorem intern_of_mem (h : name ∈ table.names) : (table.intern name).2 = table := by
  rcases intern_cases table name with ⟨v, _, heq⟩ | ⟨hnone, _⟩
  · rw [heq]
  · exact absurd h (find?_eq_none_iff.mp hnone)

theorem intern_of_not_mem (h : name ∉ table.names) :
    (table.intern name).2 = ⟨table.names.push name⟩ := by
  rcases intern_cases table name with ⟨v, hfind, _⟩ | ⟨_, heq⟩
  · exact absurd (mem_of_find? hfind) h
  · rw [heq]

theorem extends_intern (table : VarTable) (name : VarName) :
    table.Extends (table.intern name).2 := by
  rcases intern_cases table name with ⟨v, _, h⟩ | ⟨_, h⟩
  · rw [h]
    exact .refl table
  · rw [h]
    intro v known hknown
    have hlt : v < table.names.size := (Array.getElem?_eq_some_iff.mp hknown).1
    rw [name?, Array.getElem?_push_lt hlt, ← Array.getElem?_eq_getElem hlt]
    exact hknown

theorem Distinct.intern (h : table.Distinct) (name : VarName) :
    (table.intern name).2.Distinct := by
  rcases intern_cases table name with ⟨v, _, heq⟩ | ⟨hnone, heq⟩
  · rw [heq]
    exact h
  · rw [heq, Distinct, Array.toList_push]
    refine List.nodup_append.mpr ⟨h, List.pairwise_singleton _ _, ?_⟩
    intro known hknown other hother
    rw [List.mem_singleton.mp hother]
    rintro rfl
    exact find?_eq_none_iff.mp hnone (Array.mem_toList_iff.mp hknown)

/-- A name is found in a longer table where it was found before, or else at the end. -/
theorem find?_push (other : VarName) :
    find? ⟨table.names.push other⟩ name =
      (table.find? name).or (if other = name then some table.size else none) := by
  rw [find?_eq, find?_eq, Array.toList_push, List.idxOf?, List.findIdx?_append,
    List.findIdx?_singleton, ← List.idxOf?]
  by_cases heq : other = name <;> simp [heq, size]

theorem keeps_intern (table : VarTable) (name : VarName) : table.Keeps (table.intern name).2 := by
  rcases intern_cases table name with ⟨v, _, h⟩ | ⟨_, h⟩
  · rw [h]
    exact .refl table
  · rw [h]
    intro known v hknown
    rw [find?_push, hknown, Option.some_or]

/-- The variable that is given is the one found from then on. -/
theorem find?_intern (table : VarTable) (name : VarName) :
    (table.intern name).2.find? name = some (table.intern name).1 := by
  rcases intern_cases table name with ⟨v, hfind, heq⟩ | ⟨hnone, heq⟩
  · rw [heq]
    exact hfind
  · rw [heq, find?_push, hnone, Option.none_or, if_pos rfl]

/-- Whatever has become of the table in between, only the same name gets the same variable. -/
theorem intern_eq_intern_iff {other : VarName} (h : (table.intern name).2.Keeps later) :
    (table.intern name).1 = (later.intern other).1 ↔ name = other := by
  have hname : (later.intern other).2.find? name = some (table.intern name).1 :=
    later.keeps_intern other _ _ (h _ _ (table.find?_intern name))
  have hother := later.find?_intern other
  constructor
  · intro heq
    rw [← heq] at hother
    exact find?_inj hname hother
  · rintro rfl
    exact Option.some.inj (hname.symm.trans hother)

/-! ## Asking for many names -/

theorem keeps_internAll (table : VarTable) (names : List VarName) :
    table.Keeps (table.internAll names) := by
  induction names generalizing table with
  | nil => exact .refl table
  | cons name names ih => exact (table.keeps_intern name).trans (ih _)

theorem extends_internAll (table : VarTable) (names : List VarName) :
    table.Extends (table.internAll names) := by
  induction names generalizing table with
  | nil => exact .refl table
  | cons name names ih => exact (table.extends_intern name).trans (ih _)

theorem Distinct.internAll (h : table.Distinct) (names : List VarName) :
    (table.internAll names).Distinct := by
  induction names generalizing table with
  | nil => exact h
  | cons name names ih => exact ih (h.intern name)

theorem mem_internAll {names : List VarName} (h : name ∈ names) :
    name ∈ (table.internAll names).names := by
  induction names generalizing table with
  | nil => exact absurd h List.not_mem_nil
  | cons first names ih =>
      rcases List.mem_cons.mp h with rfl | h
      · exact mem_of_find? (keeps_internAll _ names _ _ (table.find?_intern name))
      · exact ih h

theorem internAll_of_mem {names : List VarName} (h : ∀ name ∈ names, name ∈ table.names) :
    table.internAll names = table := by
  induction names with
  | nil => rfl
  | cons name names ih =>
      obtain ⟨hname, hnames⟩ := List.forall_mem_cons.mp h
      rw [internAll, List.foldl_cons, intern_of_mem hname]
      exact ih hnames

theorem internAll_append (names more : List VarName) :
    table.internAll (names ++ more) = (table.internAll names).internAll more :=
  List.foldl_append

theorem internAll_internAll (names : List VarName) :
    (table.internAll names).internAll names = table.internAll names :=
  internAll_of_mem fun _ hname => mem_internAll hname

/-- Names that are new and different are put into the table in their order. -/
theorem names_internAll {names : List VarName}
    (h : (table.names.toList ++ names).Nodup) :
    (table.internAll names).names.toList = table.names.toList ++ names := by
  induction names generalizing table with
  | nil => exact (List.append_nil _).symm
  | cons name names ih =>
      have hnew : name ∉ table.names := fun hmem =>
        (List.nodup_append.mp h).2.2 name (Array.mem_toList_iff.mpr hmem) name
          List.mem_cons_self rfl
      rw [List.append_cons, ← Array.toList_push] at h
      have htail : (VarTable.internAll ⟨table.names.push name⟩ names).names.toList =
          (table.names.push name).toList ++ names := ih h
      rw [internAll, List.foldl_cons, intern_of_not_mem hnew]
      rw [internAll] at htail
      rw [htail, Array.toList_push, List.append_assoc, List.singleton_append]

end VarTable

end Elenchus
