import Elenchus.Search.Trail

/-!
# The log of a search

A search that is asked to keep a log writes down every literal it makes true and why, every clause
it finds falsified, and every case it gives up.  Levels count the case splits that are open.
-/

namespace Elenchus.Search

/-- One step of a search. -/
inductive Event where
  /-- A case is opened by making a literal true; `level` counts the open splits, this one among
  them. -/
  | decision (l : Literal) (level : Nat)
  /-- A literal is the only one left in the clause at this position. -/
  | propagation (l : Literal) (clause : Nat)
  /-- A literal whose negation occurs in no clause that is not satisfied yet. -/
  | pureLiteral (l : Literal) (level : Nat)
  /-- All literals of the clause at this position are false. -/
  | conflict (clause : Nat)
  /-- The case opened at `level + 1` is taken back. -/
  | backtrack (level : Nat)
  /-- Both cases of a variable have failed. -/
  | exhausted (v : Nat) (level : Nat)
deriving DecidableEq, Repr

end Elenchus.Search
