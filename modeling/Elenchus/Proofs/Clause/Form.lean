import Elenchus.Clause.Expansion

/-!
# The form of a lowered formula

Two facts about what lowering makes, its meaning apart.  A lowered formula is a constant, or holds
none (`Formula.folded_lower`): the constants are folded away, nested conjunctions and disjunctions
are taken apart, and a connective has two parts at least.  So has the form that a definition is
expanded from (`Formula.folded_lowered`).  And literals apart it is the same whatever the table held
before (`Formula.shape_lower`).
-/

namespace Elenchus

namespace Normal

/-! ## Folded constants -/

/-- Whether a normal form is a conjunction. -/
def isAll : Normal → Bool
  | .all _ => true
  | _ => false

/-- Whether a normal form is a disjunction. -/
def isAny : Normal → Bool
  | .any _ => true
  | _ => false

/-- No constant occurs, no conjunction is a part of a conjunction and no disjunction of a
disjunction, and each has at least two parts. -/
inductive Solid : Normal → Prop
  | literal (l : Literal) : Solid (.literal l)
  | all {parts : List Normal} : 2 ≤ parts.length → (∀ n ∈ parts, Solid n) →
      (∀ n ∈ parts, n.isAll = false) → Solid (.all parts)
  | any {parts : List Normal} : 2 ≤ parts.length → (∀ n ∈ parts, Solid n) →
      (∀ n ∈ parts, n.isAny = false) → Solid (.any parts)

/-- A constant, or none within. -/
inductive Folded : Normal → Prop
  | const (value : Bool) : Folded (.const value)
  | solid {n : Normal} : Solid n → Folded n

theorem solid_conjuncts {n m : Normal} (h : n.Folded) (hfalse : n.isConst false = false)
    (hm : m ∈ n.conjuncts) : m.Solid ∧ m.isAll = false := by
  cases h with
  | const value =>
      cases value with
      | false => exact absurd hfalse Bool.noConfusion
      | true => exact absurd hm List.not_mem_nil
  | solid h =>
      cases h with
      | literal l =>
          rw [List.mem_singleton.mp hm]
          exact ⟨.literal l, rfl⟩
      | all _ hsolid hflat => exact ⟨hsolid m hm, hflat m hm⟩
      | any hlength hsolid hflat =>
          rw [List.mem_singleton.mp hm]
          exact ⟨.any hlength hsolid hflat, rfl⟩

theorem solid_alternatives {n m : Normal} (h : n.Folded) (htrue : n.isConst true = false)
    (hm : m ∈ n.alternatives) : m.Solid ∧ m.isAny = false := by
  cases h with
  | const value =>
      cases value with
      | false => exact absurd hm List.not_mem_nil
      | true => exact absurd htrue Bool.noConfusion
  | solid h =>
      cases h with
      | literal l =>
          rw [List.mem_singleton.mp hm]
          exact ⟨.literal l, rfl⟩
      | all hlength hsolid hflat =>
          rw [List.mem_singleton.mp hm]
          exact ⟨.all hlength hsolid hflat, rfl⟩
      | any _ hsolid hflat => exact ⟨hsolid m hm, hflat m hm⟩

theorem folded_allOf {parts : List Normal} (h : ∀ n ∈ parts, n.Folded) : (allOf parts).Folded := by
  unfold allOf
  split
  next => exact .const false
  next hfalse =>
    have hsolid : ∀ m ∈ parts.flatMap conjuncts, m.Solid ∧ m.isAll = false := by
      intro m hm
      obtain ⟨n, hn, hm⟩ := List.mem_flatMap.mp hm
      refine solid_conjuncts (h n hn) (Bool.eq_false_iff.mpr fun hconst => hfalse ?_) hm
      exact List.any_eq_true.mpr ⟨n, hn, hconst⟩
    match parts.flatMap conjuncts, hsolid with
    | [], _ => exact .const true
    | [n], hsolid => exact .solid (hsolid n List.mem_cons_self).1
    | n :: m :: ns, hsolid =>
        exact .solid (.all (Nat.le_add_left 2 _) (fun k hk => (hsolid k hk).1)
          fun k hk => (hsolid k hk).2)

theorem folded_anyOf {parts : List Normal} (h : ∀ n ∈ parts, n.Folded) : (anyOf parts).Folded := by
  unfold anyOf
  split
  next => exact .const true
  next htrue =>
    have hsolid : ∀ m ∈ parts.flatMap alternatives, m.Solid ∧ m.isAny = false := by
      intro m hm
      obtain ⟨n, hn, hm⟩ := List.mem_flatMap.mp hm
      refine solid_alternatives (h n hn) (Bool.eq_false_iff.mpr fun hconst => htrue ?_) hm
      exact List.any_eq_true.mpr ⟨n, hn, hconst⟩
    match parts.flatMap alternatives, hsolid with
    | [], _ => exact .const false
    | [n], hsolid => exact .solid (hsolid n List.mem_cons_self).1
    | n :: m :: ns, hsolid =>
        exact .solid (.any (Nat.le_add_left 2 _) (fun k hk => (hsolid k hk).1)
          fun k hk => (hsolid k hk).2)

theorem folded_pair {p q : Normal} (hp : p.Folded) (hq : q.Folded) :
    (allOf [p, q]).Folded ∧ (anyOf [p, q]).Folded := by
  have h : ∀ n ∈ [p, q], n.Folded :=
    List.forall_mem_cons.mpr ⟨hp, List.forall_mem_singleton.mpr hq⟩
  exact ⟨folded_allOf h, folded_anyOf h⟩

/-! ## Shapes -/

mutual

/-- A normal form with one literal in all places. -/
def shape : Normal → Normal
  | .literal _ => .literal ⟨0, true⟩
  | .const b => .const b
  | .all parts => .all (shapes parts)
  | .any parts => .any (shapes parts)

def shapes : List Normal → List Normal
  | [] => []
  | n :: ns => n.shape :: shapes ns

end

theorem shapes_eq (parts : List Normal) : shapes parts = parts.map shape := by
  induction parts with
  | nil => rfl
  | cons n ns ih => rw [shapes, ih, List.map_cons]

theorem any_isConst_shape (value : Bool) (parts : List Normal) :
    (parts.map shape).any (isConst value) = parts.any (isConst value) := by
  rw [List.any_map]
  refine congrArg parts.any (funext fun n => ?_)
  cases n <;> rfl

theorem flatMap_shape {pieces : Normal → List Normal}
    (h : ∀ n : Normal, pieces n.shape = (pieces n).map shape) (parts : List Normal) :
    (parts.map shape).flatMap pieces = (parts.flatMap pieces).map shape := by
  induction parts with
  | nil => rfl
  | cons n ns ih => rw [List.map_cons, List.flatMap_cons, List.flatMap_cons, h, ih, List.map_append]

theorem conjuncts_shape (n : Normal) : n.shape.conjuncts = n.conjuncts.map shape := by
  cases n with
  | const b => cases b <;> rfl
  | all parts => exact shapes_eq parts
  | literal l => rfl
  | any parts => rfl

theorem alternatives_shape (n : Normal) : n.shape.alternatives = n.alternatives.map shape := by
  cases n with
  | const b => cases b <;> rfl
  | any parts => exact shapes_eq parts
  | literal l => rfl
  | all parts => rfl

theorem shape_allOf (parts : List Normal) : (allOf parts).shape = allOf (parts.map shape) := by
  unfold allOf
  rw [any_isConst_shape, flatMap_shape conjuncts_shape]
  split
  next => rfl
  next =>
    match parts.flatMap conjuncts with
    | [] => rfl
    | [_] => rfl
    | n :: m :: ns => exact congrArg Normal.all (shapes_eq (n :: m :: ns))

theorem shape_anyOf (parts : List Normal) : (anyOf parts).shape = anyOf (parts.map shape) := by
  unfold anyOf
  rw [any_isConst_shape, flatMap_shape alternatives_shape]
  split
  next => rfl
  next =>
    match parts.flatMap alternatives with
    | [] => rfl
    | [_] => rfl
    | n :: m :: ns => exact congrArg Normal.any (shapes_eq (n :: m :: ns))

/-- Joining two forms by a connective depends on their shapes only. -/
theorem shape_pair {p q p' q' : Normal} (hp : p.shape = p'.shape) (hq : q.shape = q'.shape) :
    (allOf [p, q]).shape = (allOf [p', q']).shape ∧
      (anyOf [p, q]).shape = (anyOf [p', q']).shape := by
  simp only [shape_allOf, shape_anyOf, List.map_cons, List.map_nil, hp, hq, and_self]

end Normal

namespace Formula

theorem folded_lower (f : Formula) (positive : Bool) (table : VarTable) :
    (f.lower positive table).1.Folded := by
  induction f generalizing positive table with
  | atom text => exact .solid (.literal _)
  | const value => exact .const _
  | not f ih => exact ih _ _
  | binary c f g ihf ihg =>
      have both : ∀ p q,
          (Normal.allOf [(f.lower p table).1, (g.lower q (f.lower p table).2).1]).Folded ∧
          (Normal.anyOf [(f.lower p table).1, (g.lower q (f.lower p table).2).1]).Folded :=
        fun p q => Normal.folded_pair (ihf p _) (ihg q _)
      cases c with
      | and =>
          cases positive with
          | true => exact (both true true).1
          | false => exact (both false false).2
      | or =>
          cases positive with
          | true => exact (both true true).2
          | false => exact (both false false).1
      | implies =>
          cases positive with
          | true => exact (both false true).2
          | false => exact (both true false).1
      | iff =>
          exact (Normal.folded_pair (Normal.folded_pair (ihf _ _) (ihg _ _)).2
            (Normal.folded_pair (ihf _ _) (ihg _ _)).2).1

theorem shape_lower (f : Formula) (positive : Bool) (table table' : VarTable) :
    (f.lower positive table).1.shape = (f.lower positive table').1.shape := by
  induction f generalizing positive table table' with
  | atom text => rfl
  | const value => rfl
  | not f ih => exact ih _ _ _
  | binary c f g ihf ihg =>
      have both := fun p q => Normal.shape_pair (ihf p table table')
        (ihg q (f.lower p table).2 (f.lower p table').2)
      cases c with
      | and =>
          cases positive with
          | true => exact (both true true).1
          | false => exact (both false false).2
      | or =>
          cases positive with
          | true => exact (both true true).2
          | false => exact (both false false).1
      | implies =>
          cases positive with
          | true => exact (both false true).2
          | false => exact (both true false).1
      | iff =>
          exact (Normal.shape_pair (Normal.shape_pair (ihf _ _ _) (ihg _ _ _)).2
            (Normal.shape_pair (ihf _ _ _) (ihg _ _ _)).2).1

/-! ## Definitions of variables -/

theorem folded_definitionNormal (f : Formula) (v : Nat) (table : VarTable) :
    (f.definitionNormal v table).1.Folded := by
  have first : (Normal.literal ⟨v, false⟩).Folded := .solid (.literal _)
  have second : (Normal.literal ⟨v, true⟩).Folded := .solid (.literal _)
  exact (Normal.folded_pair (Normal.folded_pair first (f.folded_lower true _)).2
    (Normal.folded_pair second (f.folded_lower false _)).2).1

/-- Whatever the table, a formula and its negation lower to a constant, or to a form that holds
none, in which each connective has two parts at least and no part with the same connective; and so
does the statement that a variable has the value of the formula, which is expanded into the clauses
of the definition. -/
theorem folded_lowered (f : Formula) (table : VarTable) :
    (∀ positive, (f.lower positive table).1.Folded) ∧
      ∀ v, (f.definitionNormal v table).1.Folded ∧
        (f.definition v table).1 = (f.definitionNormal v table).1.clauses :=
  ⟨fun positive => f.folded_lower positive table,
    fun v => ⟨f.folded_definitionNormal v table, rfl⟩⟩

theorem shape_definitionNormal (f : Formula) (v v' : Nat) (table table' : VarTable) :
    (f.definitionNormal v table).1.shape = (f.definitionNormal v' table').1.shape := by
  have first : (Normal.literal ⟨v, false⟩).shape = (Normal.literal ⟨v', false⟩).shape := rfl
  have second : (Normal.literal ⟨v, true⟩).shape = (Normal.literal ⟨v', true⟩).shape := rfl
  exact (Normal.shape_pair (Normal.shape_pair first (f.shape_lower true _ _)).2
    (Normal.shape_pair second (f.shape_lower false _ _)).2).1

end Formula

end Elenchus
