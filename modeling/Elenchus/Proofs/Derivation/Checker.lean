import Elenchus.Derivation.Checker
import Mathlib.Data.List.Forall2

/-!
# What the checker does at a step

A step of a derivation moves the checker in one of two ways.  An assumption leaves the scopes that
are as deep as it is or deeper and opens one of its own (`Checker.enter`); any other step leaves the
scopes that are deeper than it is, has to be justified there, and is written into the innermost
scope that stays open (`Checker.write`).  `check_cases` says that there is nothing else, and every
invariant of the checker is kept by showing that leaving, entering and writing keep it.

The scopes that are open form a stack, the innermost first (`Checker.stack`).  Leaving takes scopes
off the stack and records each as a closed case (`Checker.leave_induction`).
-/

namespace Elenchus

/-- An action that succeeds after another one does so on the result of that one. -/
theorem bind_eq_ok {ε α β : Type} {x : Except ε α} {f : α → Except ε β} {b : β} :
    x >>= f = .ok b ↔ ∃ a, x = .ok a ∧ f a = .ok b := by
  cases x with
  | error e =>
      constructor
      · intro h
        cases h
      · rintro ⟨_, ha, _⟩
        cases ha
  | ok a =>
      constructor
      · intro h
        exact ⟨a, rfl, h⟩
      · rintro ⟨_, ha, h⟩
        cases ha
        exact h

/-- A list of actions that all succeed gives the list of their results. -/
theorem mapM_eq_ok {ε α β : Type} {f : α → Except ε β} :
    ∀ {as : List α} {bs : List β},
      as.mapM f = .ok bs ↔ List.Forall₂ (fun a b => f a = .ok b) as bs
  | [], bs => by
      rw [List.mapM_nil, List.forall₂_nil_left_iff]
      exact ⟨fun h => (Except.ok.inj h).symm, fun h => congrArg Except.ok h.symm⟩
  | a :: as, bs => by
      rw [List.mapM_cons, List.forall₂_cons_left_iff, bind_eq_ok]
      constructor
      · rintro ⟨b, hb, h⟩
        obtain ⟨tail, htail, h⟩ := bind_eq_ok.mp h
        exact ⟨b, tail, hb, mapM_eq_ok.mp htail, (Except.ok.inj h).symm⟩
      · rintro ⟨b, tail, hb, htail, rfl⟩
        exact ⟨b, hb, bind_eq_ok.mpr ⟨tail, mapM_eq_ok.mpr htail, rfl⟩⟩

namespace Checker

/-- The open scopes, the innermost first. -/
def stack (k : Checker) : List (List Nat) := k.scope :: k.outer

/-- The state in which an assumption has opened a scope. -/
def enter (k : Checker) (line : Nat) : Checker :=
  { k with scope := [line], outer := k.scope :: k.outer }

/-- The state in which a step has been written into the innermost scope. -/
def write (k : Checker) (line : Nat) (s : Step) : Checker :=
  { k with
    scope := line :: k.scope
    uncitable := if s.justification = .pureLiteral then line :: k.uncitable else k.uncitable }

/-- The innermost scope is left. -/
def pop (k : Checker) : Checker :=
  match k.outer with
  | [] => k
  | next :: rest =>
    { k with
      scope := next, outer := rest, closed := closeScope k.scope (rest.length + 1) ++ k.closed }

/-- Leaving to a depth takes off one scope after another, while the innermost one is deeper. -/
theorem leave_eq (k : Checker) (depth : Nat) :
    k.leave depth = if depth < k.depth then k.pop.leave depth else k := by
  obtain ⟨scope, outer, closed, uncitable⟩ := k
  cases outer with
  | nil => simp [leave, leaveTo, Checker.depth]
  | cons next rest =>
      by_cases h : depth < rest.length + 1
      · simp [leave, leaveTo, pop, Checker.depth, h]
      · simp [leave, leaveTo, Checker.depth, h]

theorem depth_pop (k : Checker) : k.pop.depth = k.depth - 1 := by
  obtain ⟨scope, outer, closed, uncitable⟩ := k
  cases outer with
  | nil => rfl
  | cons next rest => rfl

/-- What holds of a state and is kept when a scope is taken off holds after leaving. -/
theorem leave_induction {P : Checker → Prop} (hpop : ∀ k, 0 < k.depth → P k → P k.pop)
    {k : Checker} (h : P k) (depth : Nat) : P (k.leave depth) := by
  rw [leave_eq]
  split
  · rename_i hlt
    have : k.pop.depth < k.depth := by rw [depth_pop]; omega
    exact leave_induction hpop (hpop k (by omega) h) depth
  · exact h
termination_by k.depth

theorem depth_leave (k : Checker) (depth : Nat) : (k.leave depth).depth = min depth k.depth := by
  rw [leave_eq]
  split
  · rename_i hlt
    have : k.pop.depth < k.depth := by rw [depth_pop]; omega
    rw [depth_leave k.pop depth, depth_pop]
    omega
  · omega
termination_by k.depth

/-- Leaving in two goes is leaving at once. -/
theorem leave_leave (k : Checker) {depth inner : Nat} (h : depth ≤ inner) :
    (k.leave inner).leave depth = k.leave depth := by
  by_cases hlt : inner < k.depth
  · have : k.pop.depth < k.depth := by rw [depth_pop]; omega
    rw [leave_eq k inner, if_pos hlt, leave_leave k.pop h, leave_eq k depth,
      if_pos (Nat.lt_of_le_of_lt h hlt)]
  · rw [leave_eq k inner, if_neg hlt]
termination_by k.depth

/-- A state that is no deeper is left as it is. -/
theorem leave_of_le {k : Checker} {depth : Nat} (h : k.depth ≤ depth) : k.leave depth = k := by
  rw [leave_eq, if_neg (Nat.not_lt.mpr h)]

section
variable {steps : List Step} {k k' : Checker} {line : Nat} {s : Step}

/-- A step that is accepted either opens a scope or is written into one. -/
theorem check_cases (h : k.check steps line s = .ok k') :
    (s.justification = .assumption ∧ 0 < s.depth ∧ s.depth ≤ k.depth + 1 ∧
      (∃ l, s.statement = .literal l) ∧ k' = (k.leave (s.depth - 1)).enter line) ∨
    (s.justification ≠ .assumption ∧ s.depth ≤ k.depth ∧
      (k.leave s.depth).justify steps line s = .ok () ∧ k' = (k.leave s.depth).write line s) := by
  unfold check at h
  split at h
  · rename_i hassume
    split at h
    · cases h
    · rename_i hdepth
      split at h
      · rename_i l hl
        injection h with h
        exact Or.inl ⟨hassume, by omega, by omega, ⟨l, hl⟩, h.symm⟩
      · cases h
  · rename_i hassume
    split at h
    · cases h
    · rename_i hdepth
      obtain ⟨_, hj, h⟩ := bind_eq_ok.mp h
      exact Or.inr ⟨hassume, by omega, hj, (Except.ok.inj h).symm⟩

theorem isVisible_iff {target : Nat} :
    k.isVisible target = true ↔ ∃ lines ∈ k.stack, target ∈ lines := by
  simp [isVisible, stack]

/-- The literal that is cited stands on a visible step that may be cited. -/
theorem citedLiteral_cases {target : Nat} {l : Literal}
    (h : k.citedLiteral steps line target = .ok l) :
    target < line ∧ k.isVisible target = true ∧ target ∉ k.uncitable ∧
      ∃ t, step? steps target = some t ∧ t.statement = .literal l := by
  unfold citedLiteral at h
  split at h
  · cases h
  · rename_i hvisible
    split at h
    · cases h
    · rename_i hcitable
      split at h
      · rename_i m hm
        injection h with h
        subst h
        rw [Option.map_eq_some_iff] at hm
        have hv := Decidable.not_not.mp hvisible
        exact ⟨hv.1, hv.2, hcitable, hm⟩
      · cases h

/-- The clause that is cited stands on a visible premise. -/
theorem citedClause_cases {target : Nat} {c : Clause}
    (h : k.citedClause steps line target = .ok c) :
    target < line ∧ k.isVisible target = true ∧
      ∃ depth propositions source,
        step? steps target = some ⟨depth, .clause c, .premise propositions source⟩ := by
  unfold citedClause at h
  split at h
  · cases h
  · rename_i hvisible
    split at h
    · rename_i depth d propositions source hm
      injection h with h
      subst h
      have hv := Decidable.not_not.mp hvisible
      exact ⟨hv.1, hv.2, depth, propositions, source, hm⟩
    · cases h

/-- The literal of a case that is cited is what its first step states. -/
theorem hypothesis_cases {depth : Nat} {case : Nat × Nat} {l : Literal}
    (h : k.hypothesis steps depth case = .ok l) :
    ⟨case.1, case.2, depth + 1⟩ ∈ k.closed ∧ k.scope.getLast?.getD 0 < case.1 ∧
      (∃ t, step? steps case.2 = some t ∧ t.statement = .bottom) ∧
      ∃ t, step? steps case.1 = some t ∧ t.statement = .literal l := by
  obtain ⟨first, last⟩ := case
  simp only [hypothesis] at h
  split at h
  · cases h
  · rename_i hclosed
    split at h
    · cases h
    · rename_i hend
      split at h
      · rename_i m hm
        injection h with h
        subst h
        rw [not_or] at hclosed
        rw [Option.map_eq_some_iff] at hm
        have hend := Decidable.not_not.mp hend
        rw [Option.map_eq_some_iff] at hend
        exact ⟨Decidable.not_not.mp hclosed.1, Nat.lt_of_not_le hclosed.2, hend, hm⟩
      · cases h

/-! ## Justifications, one by one -/

/-- Premise: a clause is given under no assumption. -/
theorem premise_cases {propositions : List PropositionId} {source : String}
    (hj : s.justification = .premise propositions source) (h : k.justify steps line s = .ok ()) :
    s.depth = 0 ∧ ∃ c, s.statement = .clause c := by
  rw [justify, hj] at h
  simp only at h
  split at h
  · rename_i c hdepth hs
    exact ⟨hdepth, c, hs⟩
  · cases h

/-- Choice of the search: a literal is stated. -/
theorem pureLiteral_cases (hj : s.justification = .pureLiteral)
    (h : k.justify steps line s = .ok ()) : ∃ l, s.statement = .literal l := by
  rw [justify, hj] at h
  simp only at h
  split at h
  · rename_i l hs
    exact ⟨l, hs⟩
  · cases h

/-- Unit resolution: the clause that is cited is the derived literal with the negations of the
literals that are cited. -/
theorem unitResolution_cases {clause : Nat} {antecedents : List Nat}
    (hj : s.justification = .unitResolution clause antecedents)
    (h : k.justify steps line s = .ok ()) :
    ∃ derived, s.statement = .literal derived ∧ ∃ refuted,
      k.citedClause steps line clause = .ok (.ofList (derived :: refuted.map Literal.negate)) ∧
      List.Forall₂ (fun n l => k.citedLiteral steps line n = .ok l) antecedents refuted := by
  rw [justify, hj] at h
  cases hs : s.statement with
  | clause c => simp only [hs] at h; cases h
  | bottom => simp only [hs] at h; cases h
  | literal derived =>
      simp only [hs] at h
      obtain ⟨source, hc, h⟩ := bind_eq_ok.mp h
      obtain ⟨refuted, hr, h⟩ := bind_eq_ok.mp h
      split at h
      · rename_i hsource
        exact ⟨derived, rfl, refuted, hc.trans (congrArg Except.ok hsource.1), mapM_eq_ok.mp hr⟩
      · cases h

/-- Contradiction: two opposite literals are cited. -/
theorem contradiction_cases {positive negative : Nat}
    (hj : s.justification = .contradiction positive negative)
    (h : k.justify steps line s = .ok ()) :
    s.statement = .bottom ∧ ∃ l, k.citedLiteral steps line positive = .ok l ∧
      k.citedLiteral steps line negative = .ok l.negate := by
  rw [justify, hj] at h
  simp only at h
  split at h
  · cases h
  · rename_i hs
    obtain ⟨l, hp, h⟩ := bind_eq_ok.mp h
    obtain ⟨m, hn, h⟩ := bind_eq_ok.mp h
    split at h
    · rename_i hm
      exact ⟨Decidable.not_not.mp hs, l, hp, hm ▸ hn⟩
    · cases h

/-- Empty clause: the clause that is cited has no literal. -/
theorem emptyClause_cases {clause : Nat} (hj : s.justification = .emptyClause clause)
    (h : k.justify steps line s = .ok ()) :
    s.statement = .bottom ∧ ∃ c, k.citedClause steps line clause = .ok c ∧ c.literals = [] := by
  rw [justify, hj] at h
  simp only at h
  split at h
  · cases h
  · rename_i hs
    obtain ⟨c, hc, h⟩ := bind_eq_ok.mp h
    split at h
    · rename_i hsize
      exact ⟨Decidable.not_not.mp hs, c, hc, List.eq_nil_of_length_eq_zero hsize⟩
    · cases h

/-- Case analysis: there are two cases, on opposite literals. -/
theorem caseAnalysis_cases {cases : List (Nat × Nat)} (hj : s.justification = .caseAnalysis cases)
    (h : k.justify steps line s = .ok ()) :
    s.statement = .bottom ∧ ∃ one other l, cases = [one, other] ∧
      k.hypothesis steps s.depth one = .ok l.negate ∧ k.hypothesis steps s.depth other = .ok l := by
  rw [justify, hj] at h
  simp only at h
  split at h
  · cases h
  · rename_i hs
    obtain ⟨literals, hm, h⟩ := bind_eq_ok.mp h
    have hall := mapM_eq_ok.mp hm
    split at h
    · rename_i l m
      split at h
      · rename_i hl
        subst hl
        rw [List.forall₂_cons_right_iff] at hall
        obtain ⟨one, rest, hone, hrest, rfl⟩ := hall
        rw [List.forall₂_cons_right_iff] at hrest
        obtain ⟨other, rest', hother, hrest', rfl⟩ := hrest
        rw [List.forall₂_nil_right_iff] at hrest'
        subst hrest'
        exact ⟨Decidable.not_not.mp hs, one, other, m, rfl, hone, hother⟩
      · cases h
    · cases h

/-! ## Whole derivations -/

/-- An invariant of the checker that yields something at each step yields it at every step that is
accepted. -/
theorem checkFrom_forall {I : Checker → Nat → Prop} {Q : Nat → Step → Prop}
    (hstep : ∀ k line s k', I k line → step? steps line = some s →
      k.check steps line s = .ok k' → I k' (line + 1) ∧ Q line s) :
    ∀ (rest : List Step) (k : Checker) (line : Nat), I k line → 0 < line →
      steps.drop (line - 1) = rest → k.checkFrom steps line rest = .ok () →
      ∀ n s, line ≤ n → step? steps n = some s → Q n s
  | [], _, line, _, hline, hrest, _ => by
      intro n s hn hs
      rw [List.drop_eq_nil_iff] at hrest
      rw [step?, if_neg (by omega), List.getElem?_eq_none (by omega)] at hs
      cases hs
  | t :: rest, k, line, hk, hline, hrest, h => by
      have ht : step? steps line = some t := by
        rw [step?, if_neg (by omega), ← List.head?_drop, hrest]
        rfl
      rw [checkFrom] at h
      cases hc : k.check steps line t with
      | error fault => rw [hc] at h; cases h
      | ok k' =>
          rw [hc] at h
          obtain ⟨hk', hq⟩ := hstep k line t k' hk ht hc
          have hrest' : steps.drop (line + 1 - 1) = rest := by
            rw [show line + 1 - 1 = (line - 1) + 1 by omega, ← List.tail_drop, hrest]
            rfl
          intro n s hn hs
          rcases Nat.eq_or_lt_of_le hn with rfl | hlt
          · rw [ht] at hs
            cases hs
            exact hq
          · exact checkFrom_forall hstep rest k' (line + 1) hk' (by omega) hrest' h n s hlt hs

end

end Checker

end Elenchus
