/-!
# Literals and clauses

Variables are numbered from 0 in the order of their creation.  A literal is a variable or its
negation, a clause a disjunction of literals.  Literals are ordered by their code, which puts the
two literals of a variable next to each other, the positive one first.  A clause holds its literals
in that order, each once; that is part of its type, so two clauses are equal exactly when they have
the same literals.

`Literal.holds` and `Clause.holds` are the meaning under an assignment of the variables.
-/

namespace Elenchus

/-- A truth value for every variable. -/
abbrev Assignment := Nat → Bool

/-- A variable or its negation. -/
structure Literal where
  var : Nat
  positive : Bool
deriving DecidableEq, Repr, Hashable

namespace Literal

def code (l : Literal) : Nat := 2 * l.var + if l.positive then 0 else 1

/-- The literal that a signed number writes: variables are counted from 1, and a minus negates.  A
code has 32 bits, so that a variable's number has 31; what lies beyond is dropped. -/
def ofSigned (n : Int) : Literal := ⟨(n.natAbs - 1) % 0x80000000, 0 < n⟩

def negate (l : Literal) : Literal := ⟨l.var, !l.positive⟩

def holds (a : Assignment) (l : Literal) : Bool := a l.var == l.positive

@[simp] theorem negate_negate (l : Literal) : l.negate.negate = l := by
  simp [negate]

@[simp] theorem var_negate (l : Literal) : l.negate.var = l.var := rfl

@[simp] theorem holds_negate (a : Assignment) (l : Literal) : l.negate.holds a = !l.holds a := by
  cases h : a l.var <;> cases hp : l.positive <;> simp [holds, negate, h, hp]

/-- Two literals of one variable are the same or opposite. -/
theorem eq_or_eq_negate {l m : Literal} (h : l.var = m.var) : l = m ∨ l = m.negate := by
  obtain ⟨v, p⟩ := l
  obtain ⟨w, q⟩ := m
  cases h
  cases p <;> cases q <;> simp [negate]

theorem code_inj {l m : Literal} (h : l.code = m.code) : l = m := by
  obtain ⟨v, p⟩ := l
  obtain ⟨w, q⟩ := m
  cases p <;> cases q <;> grind [code]

end Literal

/-- Ascending order of the literals of a clause, by their codes. -/
def Ascending (literals : List Literal) : Prop :=
  literals.Pairwise fun l m => l.code < m.code

/-- A list of literals in ascending order with one more in its place, unless it is there already. -/
def insertLiteral (l : Literal) : List Literal → List Literal
  | [] => [l]
  | m :: ms =>
    if l.code < m.code then l :: m :: ms
    else if l.code = m.code then m :: ms
    else m :: insertLiteral l ms

theorem mem_insertLiteral {l m : Literal} {ms : List Literal} :
    m ∈ insertLiteral l ms ↔ m = l ∨ m ∈ ms := by
  induction ms with
  | nil => simp [insertLiteral]
  | cons k ks ih =>
    unfold insertLiteral
    split
    · simp
    split
    next same => have := Literal.code_inj same; subst this; simp
    next => simp [ih]; grind

theorem ascending_insertLiteral {l : Literal} {ms : List Literal} (h : Ascending ms) :
    Ascending (insertLiteral l ms) := by
  induction ms with
  | nil => simp [insertLiteral, Ascending]
  | cons k ks ih =>
    have tail : Ascending ks := (List.pairwise_cons.1 h).2
    have head := (List.pairwise_cons.1 h).1
    unfold insertLiteral
    split
    next lt =>
      refine List.pairwise_cons.2 ⟨fun m hm => ?_, h⟩
      rcases List.mem_cons.1 hm with rfl | hm
      · exact lt
      · exact Nat.lt_trans lt (head m hm)
    split
    · exact h
    next ge ne =>
      refine List.pairwise_cons.2 ⟨fun m hm => ?_, ih tail⟩
      rcases mem_insertLiteral.1 hm with rfl | hm
      · omega
      · exact head m hm

theorem Ascending.nodup {literals : List Literal} (h : Ascending literals) : literals.Nodup := by
  refine List.Pairwise.imp ?_ h
  rintro l m hlt rfl
  exact Nat.lt_irrefl _ hlt

/-- A disjunction of literals, in ascending order and each once. -/
structure Clause where
  literals : List Literal
  ascending : Ascending literals
deriving DecidableEq

namespace Clause

instance : Hashable Clause := ⟨fun c => hash c.literals⟩

/-- The literals of a list, put in order, as a list. -/
def sortLiterals : List Literal → List Literal
  | [] => []
  | l :: ls => insertLiteral l (sortLiterals ls)

theorem ascending_sortLiterals : (ls : List Literal) → Ascending (sortLiterals ls)
  | [] => List.Pairwise.nil
  | _ :: ls => ascending_insertLiteral (ascending_sortLiterals ls)

def ofList (literals : List Literal) : Clause :=
  ⟨sortLiterals literals, ascending_sortLiterals literals⟩

instance : Membership Literal Clause := ⟨fun c l => l ∈ c.literals⟩

theorem mem_ofList {l : Literal} {ls : List Literal} : l ∈ (ofList ls).literals ↔ l ∈ ls := by
  induction ls with
  | nil => simp [ofList, sortLiterals]
  | cons m ms ih =>
    simp only [ofList, sortLiterals] at ih ⊢
    rw [mem_insertLiteral, ih, List.mem_cons]

/-- Clauses with the same literals are equal. -/
theorem ext_mem {c d : Clause} (h : ∀ l, l ∈ c.literals ↔ l ∈ d.literals) : c = d := by
  have same : c.literals = d.literals :=
    ((List.perm_ext_iff_of_nodup c.ascending.nodup d.ascending.nodup).mpr
      fun {l} => h l).eq_of_pairwise
        (fun _ _ _ _ hlt hgt => absurd hlt (Nat.lt_asymm hgt)) c.ascending d.ascending
  cases c
  cases d
  cases same
  rfl

/-- The clause without literals, which is false. -/
def empty : Clause := ⟨[], List.Pairwise.nil⟩

def size (c : Clause) : Nat := c.literals.length

def has (c : Clause) (l : Literal) : Bool := l ∈ c.literals

/-- Whether some variable occurs with both signs. -/
def isTautology (c : Clause) : Bool := c.literals.any fun l => l.negate ∈ c.literals

def codes (c : Clause) : List Nat := c.literals.map Literal.code

/-- The order of clauses: the order of the first codes that differ, a shorter clause before one that
continues it. -/
def order (c d : Clause) : Ordering := compare c.codes d.codes

def holds (a : Assignment) (c : Clause) : Bool := c.literals.any (Literal.holds a)

end Clause

/-- The assignment that a list of values gives, all further variables being false. -/
def Assignment.ofValues (values : List Bool) : Assignment := fun v => values.getD v false

/-- Whether an assignment satisfies all clauses of a list. -/
def Assignment.satisfies (a : Assignment) (clauses : List Clause) : Prop :=
  ∀ c ∈ clauses, c.holds a = true

end Elenchus
