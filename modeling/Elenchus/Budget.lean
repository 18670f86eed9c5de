/-!
# Budgets

A search is bounded by a count of steps, by a deadline and by a request to stop.  Steps are counted
over all searches that are charged to the same budget.  The count goes on when the limit is passed,
so the budget tells how many steps were asked for.

Time is counted in looks: a deadline passes, and a request to stop arrives, before some look that a
search takes at its budget, and from then on every look finds it so.  `Signal` says which look that
is.
-/

namespace Elenchus

/-- Why a search was stopped early. -/
inductive Exhaustion where
  | stepLimit
  | deadline
  | cancelled
deriving DecidableEq, Repr

def Exhaustion.message : Exhaustion → String
  | .stepLimit => "step limit reached"
  | .deadline => "time limit reached"
  | .cancelled => "cancelled"

/-- Something that comes to pass while a search goes on, if ever. -/
structure Signal where
  /-- How many looks come before it. -/
  after : Option Nat
deriving DecidableEq, Repr

namespace Signal

/-- A signal that is up from the start, or never. -/
def fixed (up : Bool) : Signal := ⟨if up then some 0 else none⟩

def isUp (s : Signal) : Bool := s.after == some 0

/-- The signal after a look.  It stays up once it is up. -/
def next (s : Signal) : Signal := ⟨s.after.map (· - 1)⟩

instance : Coe Bool Signal := ⟨fixed⟩

instance : CoeOut Signal Bool := ⟨isUp⟩

theorem next_fixed (up : Bool) : (fixed up).next = fixed up := by cases up <;> rfl

end Signal

/-- What a search may still do. -/
structure Budget where
  /-- The most steps that are granted. -/
  limit : Nat
  /-- The steps charged so far. -/
  used : Nat := 0
  /-- The passing of the deadline. -/
  expired : Signal := false
  /-- The request to stop. -/
  cancelled : Signal := false
deriving DecidableEq, Repr

namespace Budget

/-- The greatest limit that fits in 64 bits, which stands for none. -/
def unlimited : Budget := ⟨0xFFFFFFFFFFFFFFFF, 0, false, false⟩

/-- Why the search has to stop, steps apart: a request to stop goes before the deadline. -/
def check (b : Budget) : Option Exhaustion :=
  if b.cancelled.isUp then some .cancelled else if b.expired.isUp then some .deadline else none

def looked (b : Budget) : Budget :=
  { b with expired := b.expired.next, cancelled := b.cancelled.next }

def charged (b : Budget) : Budget := { b with used := b.used + 1 }

/-- Charges one step: why it is refused, if it is, and the budget afterwards.  The step limit goes
before all other reasons. -/
def spend (b : Budget) : Option Exhaustion × Budget :=
  (if b.limit < b.charged.used then some .stepLimit else b.check, b.charged.looked)

/-- The budget after a number of steps that were charged to it. -/
def spent (b : Budget) : Nat → Budget
  | 0 => b
  | n + 1 => b.spend.2.spent n

/-- Looks at the budget a number of times, up to the first look that finds a reason to stop. -/
def checkTimes (b : Budget) : Nat → Option Exhaustion × Budget
  | 0 => (none, b)
  | n + 1 =>
    match b.check with
    | some reason => (some reason, b.looked)
    | none => b.looked.checkTimes n

def remaining (b : Budget) : Nat := b.limit - b.used

theorem remaining_lt_of_spend {b after : Budget} (h : b.spend = (none, after)) :
    after.remaining < b.remaining := by
  unfold spend at h
  simp only [Prod.mk.injEq] at h
  obtain ⟨granted, rfl⟩ := h
  split at granted
  · simp at granted
  · simp only [charged, looked, remaining] at *
    omega

end Budget

end Elenchus
