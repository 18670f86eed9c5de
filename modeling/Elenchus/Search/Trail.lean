import Elenchus.Clause.Basic

/-!
# Partial assignments

A search keeps its partial assignment twice: as a table from variables to values, where a clause is
looked up, and as the trail of the literals made true, the latest first, from which assignments are
taken back.  `Trail.InStep` says that the two agree.
-/

namespace Elenchus.Search

/-- A partial assignment. -/
structure Trail where
  /-- The value of each variable. -/
  values : Array (Option Bool)
  /-- The literals made true, the latest first. -/
  literals : List Literal
deriving DecidableEq, Repr

namespace Trail

def start (count : Nat) : Trail := ⟨Array.replicate count none, []⟩

def value? (t : Trail) (v : Nat) : Option Bool := t.values.getD v none

def truth? (t : Trail) (l : Literal) : Option Bool := (t.value? l.var).map (· == l.positive)

def length (t : Trail) : Nat := t.literals.length

def unvalued (t : Trail) : Nat := t.values.count none

/-- One more literal made true. -/
def assign (t : Trail) (l : Literal) : Trail :=
  ⟨t.values.setIfInBounds l.var (some l.positive), l :: t.literals⟩

/-- The trail cut back to a length; the variables of the literals taken off lose their values. -/
def undo (t : Trail) (length : Nat) : Trail :=
  let surplus := t.length - length
  ⟨(t.literals.take surplus).foldl (fun values l => values.setIfInBounds l.var none) t.values,
    t.literals.drop surplus⟩

/-- The complete assignment, variables without a value being false. -/
def model (t : Trail) : List Bool := t.values.toList.map (·.getD false)

/-- A variable has a value exactly when its literal of that sign is on the trail, and is there at
most once. -/
def InStep (t : Trail) : Prop :=
  (∀ v b, t.value? v = some b ↔ ⟨v, b⟩ ∈ t.literals) ∧ (t.literals.map Literal.var).Nodup

end Trail

/-- What a partial assignment makes of a clause. -/
inductive Status where
  /-- Some literal is true. -/
  | satisfied
  /-- All literals but this one are false, and it has no value. -/
  | unit (l : Literal)
  /-- All literals are false. -/
  | falsified
  /-- Several literals have no value and none is true. -/
  | undecided
deriving DecidableEq, Repr

/-- The literals of a clause without a value. -/
def Trail.unassigned (t : Trail) (c : Clause) : List Literal :=
  c.literals.filter fun l => t.truth? l = none

def Trail.satisfies (t : Trail) (c : Clause) : Bool :=
  c.literals.any fun l => t.truth? l = some true

/-- What a partial assignment makes of a clause. -/
def Trail.status (t : Trail) (c : Clause) : Status :=
  if t.satisfies c then .satisfied
  else
    match t.unassigned c with
    | [] => .falsified
    | [l] => .unit l
    | _ => .undecided

end Elenchus.Search
