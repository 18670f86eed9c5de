import Mathlib.Data.List.Nodup
import Elenchus.Proofs.Clause.Limit

/-!
# The clauses of a formula, and of a definition

What lowering and expansion make of a formula, taken together (`Formula.Stated`).  The clauses are
true under exactly the assignments that they are meant to describe, and they speak of nothing but
the atoms of the formula and, in a definition, of the variable that is defined: no variable is
added on the way.  None of them is true whatever the assignment, none stands there twice, and there
are at most 4096 of them.

The meaning is that of `Proofs.Clause.Lowering` and `Proofs.Clause.Expansion`, the count that of
`Proofs.Clause.Limit`.  The variables are followed by one predicate on normal forms, `Normal.Over`,
that folding, lowering and expanding keep.
-/

namespace Elenchus

/-! ## Clauses -/

/-- A clause without opposite literals is false under the assignment that makes each of its literals
false. -/
theorem Clause.exists_holds_eq_false {c : Clause} (h : c.isTautology = false) :
    ∃ a, c.holds a = false := by
  refine ⟨fun v => decide (⟨v, false⟩ ∈ c.literals), List.any_eq_false.mpr fun l hl => ?_⟩
  have hnegate : l.negate ∉ c.literals := by
    simpa using List.any_eq_false.mp h l hl
  obtain ⟨v, positive⟩ := l
  cases positive with
  | true =>
      have hnot : ⟨v, false⟩ ∉ c.literals := hnegate
      simp [Literal.holds, hnot]
  | false => simp [Literal.holds, hl]

namespace Normal

section
variable {n : Normal} {cs : List Clause}

/-- Every clause is one of the rows, put in order, and is no tautology. -/
theorem mem_clauses {c : Clause} (h : n.clauses = .ok cs) (hc : c ∈ cs) :
    c.isTautology = false ∧ ∃ row ∈ n.unlimited, c = Clause.ofList row := by
  rw [eq_unlimitedClauses h, unlimitedClauses, distinct_eq_eraseDups] at hc
  obtain ⟨hmem, htautology⟩ := List.mem_filter.mp (List.mem_eraseDups.mp hc)
  obtain ⟨row, hrow, rfl⟩ := List.mem_map.mp hmem
  exact ⟨by simpa using htautology, row, hrow, rfl⟩

theorem nodup_clauses (h : n.clauses = .ok cs) : cs.Nodup := by
  rw [eq_unlimitedClauses h, unlimitedClauses, distinct_eq_eraseDups]
  exact nodup_eraseDups _

/-- There are no more clauses than rows. -/
theorem length_clauses_le (h : n.clauses = .ok cs) : cs.length ≤ n.expansion := by
  rw [eq_unlimitedClauses h, unlimitedClauses, distinct_eq_eraseDups]
  calc _ ≤ ((n.unlimited.map Clause.ofList).filter (!·.isTautology)).length :=
        (eraseDups_sublist _).length_le
    _ ≤ (n.unlimited.map Clause.ofList).length := List.length_filter_le _ _
    _ = n.expansion := by rw [List.length_map, length_unlimited]

theorem Folded.length_clauses (hfolded : n.Folded) (h : n.clauses = .ok cs) :
    cs.length ≤ 4096 := by
  refine Nat.le_trans (length_clauses_le h) (Nat.not_lt.mp fun hmany => ?_)
  cases h.symm.trans (hfolded.limited.refused.mpr hmany)

end

/-! ## Literals -/

/-- Every literal that occurs has the property. -/
inductive Over (p : Literal → Prop) : Normal → Prop
  | literal {l : Literal} : p l → Over p (.literal l)
  | const (value : Bool) : Over p (.const value)
  | all {parts : List Normal} : (∀ n ∈ parts, Over p n) → Over p (.all parts)
  | any {parts : List Normal} : (∀ n ∈ parts, Over p n) → Over p (.any parts)

section
variable {p q : Literal → Prop}

theorem Over.imp {n : Normal} (hpq : ∀ l, p l → q l) (h : n.Over p) : n.Over q := by
  induction h with
  | literal h => exact .literal (hpq _ h)
  | const value => exact .const value
  | all _ ih => exact .all ih
  | any _ ih => exact .any ih

theorem Over.conjuncts {n m : Normal} (h : n.Over p) (hm : m ∈ n.conjuncts) : m.Over p := by
  cases h with
  | literal h => rw [List.mem_singleton.mp hm]; exact .literal h
  | const value =>
      cases value with
      | true => exact absurd hm List.not_mem_nil
      | false => rw [List.mem_singleton.mp hm]; exact .const false
  | all h => exact h m hm
  | any h => rw [List.mem_singleton.mp hm]; exact .any h

theorem Over.alternatives {n m : Normal} (h : n.Over p) (hm : m ∈ n.alternatives) : m.Over p := by
  cases h with
  | literal h => rw [List.mem_singleton.mp hm]; exact .literal h
  | const value =>
      cases value with
      | false => exact absurd hm List.not_mem_nil
      | true => rw [List.mem_singleton.mp hm]; exact .const true
  | all h => rw [List.mem_singleton.mp hm]; exact .all h
  | any h => exact h m hm

theorem over_allOf {parts : List Normal} (h : ∀ n ∈ parts, n.Over p) : (allOf parts).Over p := by
  have hparts : ∀ m ∈ parts.flatMap Normal.conjuncts, m.Over p := by
    intro m hm
    obtain ⟨n, hn, hm⟩ := List.mem_flatMap.mp hm
    exact (h n hn).conjuncts hm
  unfold allOf
  split
  next => exact .const false
  next =>
    match parts.flatMap Normal.conjuncts, hparts with
    | [], _ => exact .const true
    | [n], hparts => exact hparts n List.mem_cons_self
    | _ :: _ :: _, hparts => exact .all hparts

theorem over_anyOf {parts : List Normal} (h : ∀ n ∈ parts, n.Over p) : (anyOf parts).Over p := by
  have hparts : ∀ m ∈ parts.flatMap Normal.alternatives, m.Over p := by
    intro m hm
    obtain ⟨n, hn, hm⟩ := List.mem_flatMap.mp hm
    exact (h n hn).alternatives hm
  unfold anyOf
  split
  next => exact .const true
  next =>
    match parts.flatMap Normal.alternatives, hparts with
    | [], _ => exact .const false
    | [n], hparts => exact hparts n List.mem_cons_self
    | _ :: _ :: _, hparts => exact .any hparts

theorem over_pair {n m : Normal} (hn : n.Over p) (hm : m.Over p) :
    (allOf [n, m]).Over p ∧ (anyOf [n, m]).Over p := by
  have h : ∀ k ∈ [n, m], k.Over p :=
    List.forall_mem_cons.mpr ⟨hn, List.forall_mem_singleton.mpr hm⟩
  exact ⟨over_allOf h, over_anyOf h⟩

/-- Every literal of some rows has the property. -/
def RowsOver (p : Literal → Prop) (rows : List (List Literal)) : Prop :=
  ∀ row ∈ rows, ∀ l ∈ row, p l

theorem rowsOver_append {rows rows' : List (List Literal)} (h : RowsOver p rows)
    (h' : RowsOver p rows') : RowsOver p (rows ++ rows') := fun row hrow =>
  (List.mem_append.mp hrow).elim (h row) (h' row)

theorem rowsOver_product {rows rows' : List (List Literal)} (h : RowsOver p rows)
    (h' : RowsOver p rows') : RowsOver p (rows.flatMap fun left => rows'.map (left ++ ·)) := by
  intro row hrow l hl
  obtain ⟨left, hleft, hrow⟩ := List.mem_flatMap.mp hrow
  obtain ⟨right, hright, rfl⟩ := List.mem_map.mp hrow
  exact (List.mem_append.mp hl).elim (h left hleft l) (h' right hright l)

theorem rowsOver_parts {parts : List Normal} (h : ∀ n ∈ parts, RowsOver p n.unlimited) :
    RowsOver p (unlimitedAll parts) ∧ RowsOver p (unlimitedAny parts) := by
  induction parts with
  | nil =>
      exact ⟨List.forall_mem_nil _, List.forall_mem_singleton.mpr (List.forall_mem_nil _)⟩
  | cons part parts ih =>
      obtain ⟨hpart, hparts⟩ := List.forall_mem_cons.mp h
      exact ⟨rowsOver_append hpart (ih hparts).1, rowsOver_product hpart (ih hparts).2⟩

theorem Over.rows {n : Normal} (h : n.Over p) : RowsOver p n.unlimited := by
  induction h with
  | literal h => exact List.forall_mem_singleton.mpr (List.forall_mem_singleton.mpr h)
  | const value =>
      cases value with
      | true => exact List.forall_mem_nil _
      | false => exact List.forall_mem_singleton.mpr (List.forall_mem_nil _)
  | all _ ih => exact (rowsOver_parts ih).1
  | any _ ih => exact (rowsOver_parts ih).2

/-- The clauses of a normal form have its literals only. -/
theorem Over.clauses {n : Normal} {cs : List Clause} (hover : n.Over p) (h : n.clauses = .ok cs) :
    ∀ c ∈ cs, ∀ l ∈ c.literals, p l := by
  intro c hc l hl
  obtain ⟨_, row, hrow, rfl⟩ := mem_clauses h hc
  exact hover.rows row hrow l (Clause.mem_ofList.mp hl)

end

end Normal

namespace Formula

/-! ## Atoms -/

theorem mem_atoms {f : Formula} {text : String} : text ∈ f.atoms ↔ text ∈ f.atomOccurrences := by
  have hfold : ∀ (occurrences seen : List String),
      text ∈ occurrences.foldl (fun seen a => if a ∈ seen then seen else seen ++ [a]) seen ↔
        text ∈ seen ∨ text ∈ occurrences := by
    intro occurrences
    induction occurrences with
    | nil => simp
    | cons a occurrences ih =>
        intro seen
        rw [List.foldl_cons, ih]
        split
        next hseen => grind
        next => grind
  rw [atoms, hfold]
  simp

/-- A literal of a variable that stands for an atom of the formula. -/
def Reaches (f : Formula) (table : VarTable) (l : Literal) : Prop :=
  ∃ text ∈ f.atoms, table.find? (.atom text) = some l.var

section
variable {table later : VarTable}

theorem Reaches.left {c : Connective} {f : Formula} (g : Formula) {l : Literal}
    (h : f.Reaches table l) : (binary c f g).Reaches table l := by
  obtain ⟨text, htext, hfind⟩ := h
  exact ⟨text, mem_atoms.mpr (List.mem_append_left _ (mem_atoms.mp htext)), hfind⟩

theorem Reaches.right {c : Connective} (f : Formula) {g : Formula} {l : Literal}
    (h : g.Reaches table l) : (binary c f g).Reaches table l := by
  obtain ⟨text, htext, hfind⟩ := h
  exact ⟨text, mem_atoms.mpr (List.mem_append_right _ (mem_atoms.mp htext)), hfind⟩

/-- Lowering a formula gives a variable to each of its atoms. -/
theorem named_lower (f : Formula) (positive : Bool)
    (hkeeps : (f.lower positive table).2.Keeps later) :
    ∀ text ∈ f.atoms, ∃ v, later.find? (.atom text) = some v := by
  simp only [mem_atoms]
  induction f generalizing positive table with
  | atom text =>
      exact List.forall_mem_singleton.mpr ⟨_, hkeeps _ _ (table.find?_intern (.atom text))⟩
  | const value => exact fun _ htext => absurd htext List.not_mem_nil
  | not f ih => exact ih (!positive) hkeeps
  | binary c f g ihf ihg =>
      have both : ∀ {table : VarTable} (p q : Bool),
          (g.lower q (f.lower p table).2).2.Keeps later →
          ∀ text ∈ f.atomOccurrences ++ g.atomOccurrences,
            ∃ v, later.find? (.atom text) = some v := by
        intro table p q h
        exact List.forall_mem_append.mpr ⟨ihf p ((g.keeps_lower q _).trans h), ihg q h⟩
      cases c with
      | and => exact both positive positive hkeeps
      | or => exact both positive positive hkeeps
      | implies => exact both (!positive) positive hkeeps
      | iff => exact both positive false hkeeps

/-- The normal form of a formula has only literals of its atoms. -/
theorem over_lower (f : Formula) (positive : Bool)
    (hkeeps : (f.lower positive table).2.Keeps later) :
    (f.lower positive table).1.Over (f.Reaches later) := by
  induction f generalizing positive table with
  | atom text =>
      have hfind := hkeeps _ _ (table.find?_intern (.atom text))
      exact .literal ⟨text, mem_atoms.mpr List.mem_cons_self, hfind⟩
  | const value => exact .const _
  | not f ih => exact ih (!positive) hkeeps
  | binary c f g ihf ihg =>
      -- Two operands that are lowered one after the other, whatever the table then is.
      have both : ∀ {table : VarTable} (p q : Bool),
          (g.lower q (f.lower p table).2).2.Keeps later →
          (Normal.allOf [(f.lower p table).1, (g.lower q (f.lower p table).2).1]).Over
              ((binary c f g).Reaches later) ∧
            (Normal.anyOf [(f.lower p table).1, (g.lower q (f.lower p table).2).1]).Over
              ((binary c f g).Reaches later) := by
        intro table p q h
        exact Normal.over_pair ((ihf p ((g.keeps_lower q _).trans h)).imp fun _ => .left g)
          ((ihg q h).imp fun _ => .right f)
      cases c with
      | and =>
          cases positive with
          | true => exact (both true true hkeeps).1
          | false => exact (both false false hkeeps).2
      | or =>
          cases positive with
          | true => exact (both true true hkeeps).2
          | false => exact (both false false hkeeps).1
      | implies =>
          cases positive with
          | true => exact (both false true hkeeps).2
          | false => exact (both true false hkeeps).1
      | iff =>
          let first := (g.lower true (f.lower (!positive) table).2).2
          have hlater : first.Keeps (g.lower false (f.lower positive first).2).2 :=
            (f.keeps_lower positive first).trans (g.keeps_lower false _)
          exact (Normal.over_pair (both (!positive) true (hlater.trans hkeeps)).2
            (both positive false hkeeps).2).1

end

/-! ## Statements and definitions -/

/-- Clauses that describe some assignments by the atoms of a formula and some further variables. -/
structure Stated (f : Formula) (table : VarTable) (further : List Nat)
    (described : Assignment → Prop) (cs : List Clause) : Prop where
  /-- The clauses are true together under the assignments that are described, and no others. -/
  satisfies (a : Assignment) : a.satisfies cs ↔ described a
  /-- Every atom of the formula has a variable. -/
  named : ∀ text ∈ f.atoms, ∃ v, table.find? (.atom text) = some v
  /-- No variable occurs but those of the atoms and the further ones. -/
  scope : ∀ c ∈ cs, ∀ l ∈ c.literals, l.var ∈ further ∨ f.Reaches table l
  /-- No clause is true under every assignment. -/
  falsifiable : ∀ c ∈ cs, ∃ a, c.holds a = false
  nodup : cs.Nodup
  few : cs.length ≤ 4096

/-- The clauses of a normal form state what it says. -/
theorem stated_of_normal {f : Formula} {table : VarTable} {further : List Nat} {n : Normal}
    {cs : List Clause} (hfolded : n.Folded)
    (hover : n.Over fun l => l.var ∈ further ∨ f.Reaches table l)
    (hnamed : ∀ text ∈ f.atoms, ∃ v, table.find? (.atom text) = some v)
    (h : n.clauses = .ok cs) : f.Stated table further (n.holds · = true) cs where
  satisfies a := Normal.satisfies_of_clauses a h
  named := hnamed
  scope := hover.clauses h
  falsifiable _ hc := Clause.exists_holds_eq_false (Normal.mem_clauses h hc).1
  nodup := Normal.nodup_clauses h
  few := hfolded.length_clauses h

section
variable {table later : VarTable} {cs : List Clause}

theorem stated_clausesOf (f : Formula) (positive : Bool)
    (h : f.clausesOf positive table = (.ok cs, later)) :
    f.Stated later [] (fun a => f.eval (later.atomValue a) = positive) cs := by
  obtain rfl : (f.lower positive table).2 = later := congrArg Prod.snd h
  have hclauses : (f.lower positive table).1.clauses = .ok cs := congrArg Prod.fst h
  have hholds := fun a => f.holds_lower positive (.refl _)
    ((f.lower positive table).2.reads_atomValue a)
  have hover : (f.lower positive table).1.Over fun l =>
      l.var ∈ [] ∨ f.Reaches (f.lower positive table).2 l :=
    (f.over_lower positive (.refl _)).imp fun _ hl => .inr hl
  have hstated := stated_of_normal (f.folded_lower positive table) hover
    (f.named_lower positive (.refl _)) hclauses
  exact { hstated with
    satisfies := fun a => by rw [hstated.satisfies, hholds, beq_iff_eq] }

theorem stated_definition (f : Formula) (v : Nat)
    (h : f.definition v table = (.ok cs, later)) :
    f.Stated later [v] (fun a => a v = f.eval (later.atomValue a)) cs := by
  obtain rfl : (f.definition v table).2 = later := congrArg Prod.snd h
  have hclauses : (f.definition v table).1 = .ok cs := congrArg Prod.fst h
  have own : ∀ positive, (Normal.literal ⟨v, positive⟩).Over fun l =>
      l.var ∈ [v] ∨ f.Reaches (f.definition v table).2 l :=
    fun _ => .literal (.inl List.mem_cons_self)
  have hover : (f.definitionNormal v table).1.Over fun l =>
      l.var ∈ [v] ∨ f.Reaches (f.definition v table).2 l :=
    (Normal.over_pair
      (Normal.over_pair (own false)
        ((f.over_lower true (f.keeps_lower false _)).imp fun _ hl => .inr hl)).2
      (Normal.over_pair (own true)
        ((f.over_lower false (.refl _)).imp fun _ hl => .inr hl)).2).1
  have hstated := stated_of_normal (f.folded_definitionNormal v table) hover
    (f.named_lower false (.refl _)) hclauses
  exact { hstated with
    satisfies := fun a => f.satisfies_of_definition v (.refl _)
      ((f.definition v table).2.reads_atomValue a) hclauses }

end

/-- Lowering keeps the meaning and adds no variables: the clauses of a formula, or of its negation,
are true exactly when it has that value, those of a definition exactly when the variable has the
value of the formula. -/
theorem stated_lowered (f : Formula) (table : VarTable) :
    (∀ positive cs later, f.clausesOf positive table = (.ok cs, later) →
      f.Stated later [] (fun a => f.eval (later.atomValue a) = positive) cs) ∧
    ∀ v cs later, f.definition v table = (.ok cs, later) →
      f.Stated later [v] (fun a => a v = f.eval (later.atomValue a)) cs := by
  constructor
  · intro positive cs later hclauses
    exact f.stated_clausesOf positive hclauses
  · intro v cs later hclauses
    exact f.stated_definition v hclauses

/-- The equivalence `p ↔ ¬q`, its negation, and the proposition that it defines, beside a table that
holds the proposition and the second atom already. -/
theorem stated_lowered_equivalence :
    let f : Formula := .binary .iff (.atom "p") (.not (.atom "q"))
    let table : VarTable := ⟨#[.proposition ⟨"claim"⟩, .atom "q"]⟩
    let later : VarTable := ⟨#[.proposition ⟨"claim"⟩, .atom "q", .atom "p"]⟩
    let direct : List Clause :=
      [.ofList [⟨1, false⟩, ⟨2, false⟩], .ofList [⟨1, true⟩, ⟨2, true⟩]]
    let negated : List Clause :=
      [.ofList [⟨1, false⟩, ⟨2, true⟩], .ofList [⟨1, true⟩, ⟨2, false⟩]]
    let defined : List Clause :=
      [.ofList [⟨0, false⟩, ⟨1, false⟩, ⟨2, false⟩], .ofList [⟨0, false⟩, ⟨1, true⟩, ⟨2, true⟩],
        .ofList [⟨0, true⟩, ⟨1, false⟩, ⟨2, true⟩], .ofList [⟨0, true⟩, ⟨1, true⟩, ⟨2, false⟩]]
    (f.clausesOf true table = (.ok direct, later) ∧
      f.Stated later [] (fun a => f.eval (later.atomValue a) = true) direct) ∧
    (f.clausesOf false table = (.ok negated, later) ∧
      f.Stated later [] (fun a => f.eval (later.atomValue a) = false) negated) ∧
    f.definition 0 table = (.ok defined, later) ∧
      f.Stated later [0] (fun a => a 0 = f.eval (later.atomValue a)) defined := by
  intro f table later direct negated defined
  have hdirect : f.clausesOf true table = (.ok direct, later) := by cbv
  have hnegated : f.clausesOf false table = (.ok negated, later) := by cbv
  have hdefined : f.definition 0 table = (.ok defined, later) := by cbv
  obtain ⟨hclauses, hdefinition⟩ := stated_lowered f table
  exact ⟨⟨hdirect, hclauses true direct later hdirect⟩,
    ⟨hnegated, hclauses false negated later hnegated⟩,
    hdefined, hdefinition 0 defined later hdefined⟩

end Formula

end Elenchus
