import Elenchus.Budget

/-!
# What a budget grants and refuses

A budget is asked for steps (`spend`) and for looks (`check`).  `Budget.Grants b left` says that `b`
has granted a number of them, in any order, and `left` is what remains; `Budget.Refuses` that it has
granted some and then refused one for a reason.  A search that is made of searches keeps its account
by these two relations: `Budget.Gives b holds` says of its answer that something holds of it, unless
the budget has refused.  No look at an `Unhindered` budget finds a reason to stop, and one that
`Affords` a number of steps grants as many.

A budget that is `AtMost` another differs from it in nothing but a lower limit.  What is searched
under both goes the same way until the lower limit is reached: the second answer `Repeats` the
first.
-/

namespace Elenchus.Budget

/-- What remains of a budget that has granted some steps and looks. -/
inductive Grants : Budget → Budget → Prop
  | refl (b : Budget) : Grants b b
  | spend {b after left : Budget} : b.spend = (none, after) → Grants after left → Grants b left
  | look {b left : Budget} : b.check = none → Grants b.looked left → Grants b left

/-- A budget grants some steps and looks and refuses the next one. -/
def Refuses (b : Budget) (reason : Exhaustion) (left : Budget) : Prop :=
  ∃ here, b.Grants here ∧
    (here.spend = (some reason, left) ∨ here.check = some reason ∧ here.looked = left)

theorem Grants.trans {b here left : Budget} (h : b.Grants here) (h' : here.Grants left) :
    b.Grants left := by
  induction h with
  | refl b => exact h'
  | spend hspend _ ih => exact .spend hspend (ih h')
  | look hcheck _ ih => exact .look hcheck (ih h')

theorem Grants.refuses {b here left : Budget} {reason : Exhaustion} (h : b.Grants here)
    (h' : here.Refuses reason left) : b.Refuses reason left := by
  obtain ⟨last, hlast, hrefused⟩ := h'
  exact ⟨last, h.trans hlast, hrefused⟩

theorem refuses_of_check {b : Budget} {reason : Exhaustion} (h : b.check = some reason) :
    b.Refuses reason b.looked :=
  ⟨b, .refl b, .inr ⟨h, rfl⟩⟩

theorem grants_looked {b : Budget} (h : b.check = none) : b.Grants b.looked :=
  .look h (.refl _)

/-- A step is charged whether it is granted or refused. -/
theorem used_of_spend {b after : Budget} {answer : Option Exhaustion}
    (h : b.spend = (answer, after)) : after.used = b.used + 1 :=
  (congrArg (fun spent => spent.2.used) h).symm

/-- Steps that are all granted, one after another. -/
theorem grants_spent {n : Nat} {b : Budget} (h : ∀ i < n, (b.spent i).spend.1 = none) :
    b.Grants (b.spent n) := by
  induction n generalizing b with
  | zero => exact .refl b
  | succ n ih =>
      have hfirst : b.spend = (none, b.spend.2) := Prod.ext (h 0 (Nat.zero_lt_succ n)) rfl
      exact .spend hfirst (ih fun i hi => h (i + 1) (Nat.succ_lt_succ hi))

/-- What a search that a budget is charged for answers: a value of which something holds, unless the
budget refuses. -/
def Gives {α : Type} (b : Budget) (holds : α → Prop) : Except Exhaustion α × Budget → Prop
  | (.error reason, left) => b.Refuses reason left
  | (.ok value, left) => b.Grants left ∧ holds value

theorem Gives.imp {α : Type} {b here : Budget} {holds holds' : α → Prop}
    {answer : Except Exhaustion α × Budget} (hgrants : b.Grants here)
    (himp : ∀ value, holds value → holds' value) (h : here.Gives holds answer) :
    b.Gives holds' answer := by
  obtain ⟨answer, left⟩ := answer
  cases answer with
  | error reason => exact hgrants.refuses h
  | ok value => exact ⟨hgrants.trans h.1, himp value h.2⟩

/-! ## Budgets that never refuse a look -/

/-- No look at a budget finds a reason to stop. -/
def Unhindered (b : Budget) : Prop := ∀ n, (b.checkTimes n).1 = none

theorem Unhindered.check {b : Budget} (h : b.Unhindered) : b.check = none := by
  have hone := h 1
  unfold checkTimes at hone
  split at hone
  · cases hone
  · assumption

theorem Unhindered.looked {b : Budget} (h : b.Unhindered) : b.looked.Unhindered := by
  intro n
  have hnext := h (n + 1)
  rw [checkTimes, h.check] at hnext
  exact hnext

/-- A budget without a deadline that nobody asks to stop. -/
theorem unhindered_of_never {b : Budget} (hexpired : b.expired = .fixed false)
    (hcancelled : b.cancelled = .fixed false) : b.Unhindered := by
  intro n
  induction n generalizing b with
  | zero => rfl
  | succ n ih =>
      have hcheck : b.check = none := by
        rw [Budget.check, hexpired, hcancelled]
        rfl
      rw [checkTimes, hcheck]
      refine ih ?_ ?_
      · rw [Budget.looked, hexpired, Signal.next_fixed]
      · rw [Budget.looked, hcancelled, Signal.next_fixed]

/-- Only the signals matter for what a look finds. -/
theorem checkTimes_charged (b : Budget) (n : Nat) :
    (b.charged.checkTimes n).1 = (b.checkTimes n).1 := by
  induction n generalizing b with
  | zero => rfl
  | succ n ih =>
      have hcheck : b.charged.check = b.check := rfl
      rw [checkTimes, checkTimes, hcheck]
      split
      · rfl
      · exact ih b.looked

theorem Unhindered.charged {b : Budget} (h : b.Unhindered) : b.charged.Unhindered := by
  intro n
  rw [checkTimes_charged]
  exact h n

/-! ## Budgets that suffice -/

/-- A budget that grants so many steps more, and every look. -/
structure Affords (b : Budget) (steps : Nat) : Prop where
  unhindered : b.Unhindered
  enough : steps ≤ b.remaining

theorem Affords.mono {b : Budget} {steps fewer : Nat} (h : b.Affords steps)
    (hle : fewer ≤ steps) : b.Affords fewer :=
  ⟨h.unhindered, Nat.le_trans hle h.enough⟩

theorem Affords.looked {b : Budget} {steps : Nat} (h : b.Affords steps) :
    b.looked.Affords steps :=
  ⟨h.unhindered.looked, h.enough⟩

theorem Affords.spend {b : Budget} {steps : Nat} (h : b.Affords (steps + 1)) :
    b.spend = (none, b.spend.2) ∧ b.spend.2.Affords steps := by
  have henough := h.enough
  simp only [remaining] at henough
  have hlimit : ¬b.limit < b.charged.used := by
    simp only [Budget.charged]
    omega
  refine ⟨Prod.ext ?_ rfl, h.unhindered.charged.looked, ?_⟩
  · rw [Budget.spend, if_neg hlimit]
    exact h.unhindered.check
  · simp only [Budget.spend, Budget.charged, Budget.looked, remaining]
    omega

/-! ## A higher limit -/

/-- Two budgets that differ in their limits only, the second being the higher. -/
structure AtMost (b more : Budget) : Prop where
  limit : b.limit ≤ more.limit
  used : more.used = b.used
  expired : more.expired = b.expired
  cancelled : more.cancelled = b.cancelled

/-- A second answer is the same as the first and leaves a budget that differs in its limit only,
unless the first one is that the search was stopped. -/
def Repeats {α : Type} (stopped answer : α) (left : Budget) (again : α) (left' : Budget) : Prop :=
  answer = stopped ∨ again = answer ∧ left.AtMost left'

theorem Repeats.exists_eq {α : Type} {stopped answer : α} {left : Budget}
    {first second : α × Budget} (h : Repeats stopped first.1 first.2 second.1 second.2)
    (hfirst : first = (answer, left)) (hne : answer ≠ stopped) :
    ∃ left', second = (answer, left') ∧ left.AtMost left' := by
  subst hfirst
  obtain hstopped | ⟨hsame, hleft⟩ := h
  · exact absurd hstopped hne
  · exact ⟨second.2, Prod.ext hsame rfl, hleft⟩

namespace AtMost

variable {b more : Budget}

theorem check (h : b.AtMost more) : more.check = b.check := by
  rw [Budget.check, h.expired, h.cancelled, Budget.check]

theorem charged (h : b.AtMost more) : b.charged.AtMost more.charged :=
  ⟨h.limit, congrArg (· + 1) h.used, h.expired, h.cancelled⟩

theorem looked (h : b.AtMost more) : b.looked.AtMost more.looked :=
  ⟨h.limit, h.used, congrArg Signal.next h.expired, congrArg Signal.next h.cancelled⟩

/-- Under the higher limit a step is granted or refused alike, unless the lower one is reached. -/
theorem spend (h : b.AtMost more) :
    Repeats (some .stepLimit) b.spend.1 b.spend.2 more.spend.1 more.spend.2 := by
  by_cases hlimit : b.limit < b.charged.used
  · exact .inl (if_pos hlimit)
  · have hmore : ¬more.limit < more.charged.used := by
      have hle := h.limit
      rw [h.charged.used]
      omega
    refine .inr ⟨?_, h.charged.looked⟩
    rw [Budget.spend, Budget.spend, if_neg hlimit, if_neg hmore, h.check]

end AtMost

end Elenchus.Budget
