import Elenchus.Proofs.Derivation.Scope

/-!
# Accepted derivations have unsatisfiable premises

The main statement is `unsatisfiable_of_check`: whatever list of steps the checker accepts, no
assignment satisfies the clauses that are given in it, and no step of it cites anything outside its
scope.

An assignment that satisfies the premises is fixed throughout.  The invariant is `Checker.Sound`:
for every open scope, if the assumptions of that scope and of the scopes around it hold, so does
what its lines claim; and a case that was closed within the scope leads from its assumption to what
its last line claims.  A choice of the search claims nothing.  No assumption is open at the
outermost depth, so what a step claims there is true, and falsity is not.
-/

namespace Elenchus

/-- The truth value of a statement under an assignment. -/
def Statement.holds (a : Assignment) : Statement → Bool
  | .clause c => c.holds a
  | .literal l => l.holds a
  | .bottom => false

/-- The clause that a step gives, if it is a premise. -/
def Step.premise? (s : Step) : Option Clause :=
  match s.statement, s.justification with
  | .clause c, .premise _ _ => some c
  | _, _ => none

/-- The clauses that a derivation rests on. -/
def Derivation.premises (d : Derivation) : List Clause := d.steps.filterMap Step.premise?

namespace Checker

section
variable (steps : List Step) (a : Assignment)

/-- What a step claims is true.  A literal that is a choice of the search claims nothing. -/
def Claims (line : Nat) : Prop :=
  ∀ s, step? steps line = some s →
    s.statement.holds a = true ∨ (∃ l, s.statement = .literal l) ∧ s.justification = .pureLiteral

/-- The assumptions hold that the scopes of a stack were opened with; the outermost has none. -/
def Assumed : List (List Nat) → Prop
  | lines :: next :: rest =>
    (∀ n, lines.getLast? = some n → Claims steps a n) ∧ Assumed (next :: rest)
  | _ => True

/-- What is written in the scopes of a stack follows from their assumptions, and a closed case leads
from its assumption to its last line. -/
def Sound (closed : List ClosedCase) : List (List Nat) → Prop
  | [] => True
  | lines :: outer =>
      (Assumed steps a (lines :: outer) →
        (∀ n ∈ lines, Claims steps a n) ∧
        ∀ case ∈ closed, case.depth = outer.length + 1 → lines.getLast?.getD 0 < case.first →
          Claims steps a case.first → Claims steps a case.last) ∧
      Sound closed outer

end

section
variable {steps : List Step} {a : Assignment} {k k' : Checker} {line : Nat} {s : Step}

theorem Assumed.tail {lines : List Nat} : ∀ {outer : List (List Nat)},
    Assumed steps a (lines :: outer) → Assumed steps a outer
  | [], _ => trivial
  | _ :: _, h => h.2

/-- Where the assumptions hold, all lines of the open scopes do. -/
theorem Sound.claims {closed : List ClosedCase} : ∀ {stack : List (List Nat)},
    Sound steps a closed stack → Assumed steps a stack →
      ∀ lines ∈ stack, ∀ n ∈ lines, Claims steps a n
  | [], _, _ => fun _ h => absurd h List.not_mem_nil
  | _ :: _, h, hassumed => by
      intro lines hlines n hn
      rcases List.mem_cons.mp hlines with rfl | hlines
      · exact (h.1 hassumed).1 n hn
      · exact h.2.claims hassumed.tail lines hlines n hn

/-- A case that is deeper than the scopes of a stack can open says nothing about them. -/
theorem Sound.close {closed new : List ClosedCase} : ∀ {stack : List (List Nat)},
    (∀ case ∈ new, stack.length < case.depth) → Sound steps a closed stack →
      Sound steps a (new ++ closed) stack
  | [], _, _ => trivial
  | lines :: outer, hdeep, h => by
      refine ⟨fun hassumed => ⟨(h.1 hassumed).1, ?_⟩,
        h.2.close fun case hcase => Nat.lt_of_succ_lt (hdeep case hcase)⟩
      intro case hcase hdepth
      rcases List.mem_append.mp hcase with hnew | hold
      · exact absurd (hdeep case hnew) (by rw [hdepth]; exact Nat.lt_irrefl _)
      · exact (h.1 hassumed).2 case hold hdepth

/-- A scope that is left leads from its assumption to its last line. -/
theorem Sound.pop (h : Sound steps a k.closed k.stack) :
    Sound steps a k.pop.closed k.pop.stack := by
  obtain ⟨scope, outer, closed, uncitable⟩ := k
  cases outer with
  | nil => exact h
  | cons next rest =>
      refine ⟨fun hassumed => ⟨(h.2.1 hassumed).1, ?_⟩, ?_⟩
      · intro case hcase hdepth hopened hfirst
        rcases List.mem_append.mp hcase with hnew | hold
        · obtain ⟨hopen, hlast, _⟩ := closeScope_cases hnew
          have hscope : Assumed steps a (scope :: next :: rest) := by
            refine ⟨?_, hassumed⟩
            intro n hn
            rw [hopen] at hn
            cases hn
            exact hfirst
          exact (h.1 hscope).1 _ (List.mem_of_head? hlast)
        · exact (h.2.1 hassumed).2 case hold hdepth hopened hfirst
      · refine Sound.close ?_ h.2.2
        intro case hcase
        rw [(closeScope_cases hcase).2.2]
        exact Nat.lt_succ_self _

theorem Sound.leave (h : Sound steps a k.closed k.stack) (depth : Nat) :
    Sound steps a (k.leave depth).closed (k.leave depth).stack :=
  leave_induction (P := fun k => Sound steps a k.closed k.stack) (fun _ _ hk => hk.pop) h depth

/-- An assumption follows from itself, and no case was closed after it. -/
theorem Sound.enter (h : Sound steps a k.closed k.stack)
    (hclosed : ∀ case ∈ k.closed, case.first < line) :
    Sound steps a (k.enter line).closed (k.enter line).stack := by
  refine ⟨fun hassumed => ⟨?_, ?_⟩, h⟩
  · intro n hn
    rw [List.mem_singleton.mp hn]
    exact hassumed.1 line rfl
  · intro case hcase _ hopened
    exact absurd hopened (Nat.not_lt.mpr (Nat.le_of_lt (hclosed case hcase)))

/-- A step may be written that is true where the assumptions of its scope are. -/
theorem Sound.write (h : Sound steps a k.closed k.stack)
    (hclosed : ∀ case ∈ k.closed, case.first < line)
    (hclaims : Assumed steps a k.stack → Claims steps a line) :
    Sound steps a (k.write line s).closed (k.write line s).stack := by
  -- The first line of the scope is the same as before, or there was none.
  have hlast : k.scope = [] ∨ (line :: k.scope).getLast? = k.scope.getLast? := by
    cases hscope : k.scope with
    | nil => exact Or.inl rfl
    | cons n ns => exact Or.inr List.getLast?_cons_cons
  have hold : Assumed steps a (k.write line s).stack → Assumed steps a k.stack := by
    intro hassumed
    show Assumed steps a (k.scope :: k.outer)
    cases houter : k.outer with
    | nil => trivial
    | cons next rest =>
        have hassumed : Assumed steps a ((line :: k.scope) :: next :: rest) := houter ▸ hassumed
        refine ⟨?_, hassumed.2⟩
        intro n hn
        rcases hlast with hnil | hsame
        · rw [hnil] at hn
          cases hn
        · exact hassumed.1 n (hsame.trans hn)
  refine ⟨fun hassumed => ⟨?_, ?_⟩, h.2⟩
  · intro n hn
    rcases List.mem_cons.mp hn with rfl | hn
    · exact hclaims (hold hassumed)
    · exact (h.1 (hold hassumed)).1 n hn
  · intro case hcase hdepth hopened
    rcases hlast with hnil | hsame
    · have hopened : (line :: k.scope).getLast?.getD 0 < case.first := hopened
      rw [hnil] at hopened
      exact absurd hopened (Nat.not_lt.mpr (Nat.le_of_lt (hclosed case hcase)))
    · refine (h.1 (hold hassumed)).2 case hcase hdepth ?_
      rw [← hsame]
      exact hopened

end

/-! ## Each justification -/

section
variable {steps : List Step} {a : Assignment} {k k' : Checker} {line : Nat} {s : Step}

theorem not_claims_bottom (hs : step? steps line = some s) (hbottom : s.statement = .bottom) :
    ¬Claims steps a line := by
  intro h
  rcases h s hs with hholds | ⟨⟨l, hl⟩, _⟩
  · rw [hbottom] at hholds
    cases hholds
  · rw [hbottom] at hl
    cases hl

section
variable (hsound : Sound steps a k.closed k.stack) (hassumed : Assumed steps a k.stack)
  (hplaced : Placed steps k line)
include hsound hassumed

include hplaced in
/-- A literal that may be cited is true. -/
theorem holds_of_citedLiteral {n : Nat} {l : Literal}
    (h : k.citedLiteral steps line n = .ok l) : l.holds a = true := by
  obtain ⟨hlt, hv, hcitable, t, ht, hl⟩ := citedLiteral_cases h
  obtain ⟨lines, hlines, hn⟩ := isVisible_iff.mp hv
  rcases hsound.claims hassumed lines hlines n hn t ht with hholds | ⟨_, hpure⟩
  · rw [hl] at hholds
    exact hholds
  · exact absurd (hplaced.uncitable n t hlt ht hpure) hcitable

/-- The assumption of a case that may be cited is false. -/
theorem holds_of_hypothesis {case : Nat × Nat} {l : Literal}
    (h : k.hypothesis steps k.depth case = .ok l) : l.holds a = false := by
  obtain ⟨hclosed, hopened, ⟨t, ht, hbottom⟩, u, hu, hl⟩ := hypothesis_cases h
  cases hholds : l.holds a with
  | false => rfl
  | true =>
      refine absurd ((hsound.1 hassumed).2 _ hclosed rfl hopened ?_) (not_claims_bottom ht hbottom)
      intro t ht
      rw [hu] at ht
      cases ht
      rw [hl]
      exact Or.inl hholds

include hplaced in
/-- A step that is justified is true where the assumptions of its scope and the premises are. -/
theorem claims_of_justify
    (hpremises : ∀ n t c, step? steps n = some t → t.premise? = some c → c.holds a = true)
    (hs : step? steps line = some s) (hassume : s.justification ≠ .assumption)
    (hdepth : k.depth = s.depth) (h : k.justify steps line s = .ok ()) : Claims steps a line := by
  have hclause : ∀ {n c}, k.citedClause steps line n = .ok c → c.holds a = true := by
    intro n c hc
    obtain ⟨_, _, depth, propositions, source, ht⟩ := citedClause_cases hc
    exact hpremises n _ c ht rfl
  intro t ht
  rw [hs] at ht
  cases ht
  cases hj : s.justification with
  | assumption => exact absurd hj hassume
  | premise propositions source =>
      obtain ⟨_, c, hst⟩ := premise_cases hj h
      have hholds := hpremises line s c hs (by rw [Step.premise?, hst, hj])
      rw [hst]
      exact Or.inl hholds
  | pureLiteral => exact Or.inr ⟨pureLiteral_cases hj h, rfl⟩
  | unitResolution clause antecedents =>
      obtain ⟨derived, hst, refuted, hc, hr⟩ := unitResolution_cases hj h
      left
      rw [hst]
      obtain ⟨l, hl, hholds⟩ := List.any_eq_true.mp (hclause hc)
      rcases List.mem_cons.mp (Clause.mem_ofList.mp hl) with rfl | hl
      · exact hholds
      · obtain ⟨m, hm, rfl⟩ := List.mem_map.mp hl
        obtain ⟨i, hi, rfl⟩ := List.getElem_of_mem hm
        have htrue := holds_of_citedLiteral hsound hassumed hplaced
          (hr.get (hr.length_eq ▸ hi) hi)
        rw [List.get_eq_getElem] at htrue
        rw [Literal.holds_negate, htrue] at hholds
        cases hholds
  | contradiction positive negative =>
      obtain ⟨_, l, hp, hn⟩ := contradiction_cases hj h
      have htrue := holds_of_citedLiteral hsound hassumed hplaced hn
      rw [Literal.holds_negate, holds_of_citedLiteral hsound hassumed hplaced hp] at htrue
      cases htrue
  | emptyClause clause =>
      obtain ⟨_, c, hc, hnil⟩ := emptyClause_cases hj h
      have htrue := hclause hc
      rw [Clause.holds, hnil] at htrue
      cases htrue
  | caseAnalysis cases =>
      obtain ⟨_, one, other, l, rfl, hone, hother⟩ := caseAnalysis_cases hj h
      rw [← hdepth] at hone hother
      have hfalse := holds_of_hypothesis hsound hassumed hone
      rw [Literal.holds_negate, holds_of_hypothesis hsound hassumed hother] at hfalse
      cases hfalse

end

/-! ## Whole derivations -/

/-- Every step that is accepted keeps the invariant; one at the outermost depth is true. -/
theorem Sound.check
    (hpremises : ∀ n t c, step? steps n = some t → t.premise? = some c → c.holds a = true)
    (hsound : Sound steps a k.closed k.stack) (hplaced : Placed steps k line)
    (hs : step? steps line = some s) (hk : k.check steps line s = .ok k') :
    Sound steps a k'.closed k'.stack ∧ (s.depth = 0 → Claims steps a line) := by
  have hclosed : ∀ depth, ∀ case ∈ (k.leave depth).closed, case.first < line := by
    intro depth case hcase
    obtain ⟨hle, hlt, _⟩ := (hplaced.leave depth).closed case hcase
    exact Nat.lt_of_le_of_lt hle hlt
  rcases check_cases hk with ⟨_, hpos, _, _, rfl⟩ | ⟨hassume, hle, hj, rfl⟩
  · exact ⟨(hsound.leave _).enter (hclosed _), fun hzero => absurd hzero (by omega)⟩
  · have hdepth : (k.leave s.depth).depth = s.depth := by rw [depth_leave]; omega
    have hclaims : Assumed steps a (k.leave s.depth).stack → Claims steps a line := fun hassumed =>
      claims_of_justify (hsound.leave _) hassumed (hplaced.leave _) hpremises hs hassume hdepth hj
    refine ⟨(hsound.leave _).write (hclosed _) hclaims, fun hzero => hclaims ?_⟩
    -- At the outermost depth a single scope is open, and it has no assumption.
    rw [hzero] at hdepth ⊢
    rw [stack, List.eq_nil_of_length_eq_zero hdepth]
    trivial

end

end Checker

/-- The premises of an accepted derivation are unsatisfiable together.  A step of it rests only on
earlier steps of the scopes that are open at it, never on a choice of the search, and a case
analysis only on two closed cases of its own scope. -/
theorem Derivation.unsatisfiable_of_check (d : Derivation) (h : d.check = .ok ()) :
    (¬∃ a : Assignment, a.satisfies d.premises) ∧
      ∀ line s, Checker.step? d.steps line = some s → s.CitesInScope d.steps line := by
  obtain ⟨_, hfrom, hend⟩ := bind_eq_ok.mp h
  have hstart : d.steps.drop (1 - 1) = d.steps := rfl
  constructor
  · rintro ⟨a, ha⟩
    have hpremises : ∀ n t c, Checker.step? d.steps n = some t → t.premise? = some c →
        c.holds a = true := by
      intro n t c ht hc
      exact ha c (List.mem_filterMap.mpr ⟨t, Checker.mem_of_step? ht, hc⟩)
    have htrue := Checker.checkFrom_forall
      (I := fun k line => Checker.Sound d.steps a k.closed k.stack ∧ Checker.Placed d.steps k line)
      (Q := fun line s => s.depth = 0 → Checker.Claims d.steps a line)
      (fun k line s k' hk hs hc =>
        have hkept := hk.1.check hpremises hk.2 hs hc
        ⟨⟨hkept.1, hk.2.check hs hc⟩, hkept.2⟩)
      d.steps Checker.start 1 ⟨⟨fun _ => ⟨fun _ hn => absurd hn List.not_mem_nil,
        fun _ hcase => absurd hcase List.not_mem_nil⟩, trivial⟩, Checker.placed_start⟩
      Nat.one_pos hstart hfrom
    split at hend
    · rename_i hlast
      obtain ⟨s, hs, hconclusion⟩ := (Option.any_eq_true _ _).mp hlast
      simp only [Step.isConclusion, Bool.and_eq_true, decide_eq_true_eq] at hconclusion
      have hs' : Checker.step? d.steps d.steps.length = some s := by
        rw [List.getLast?_eq_getElem?] at hs
        rw [Checker.step?, if_neg, hs]
        intro hzero
        rw [List.eq_nil_of_length_eq_zero hzero] at hs
        cases hs
      have hpos : 1 ≤ d.steps.length := Checker.step?_lt hs'
      exact Checker.not_claims_bottom hs' hconclusion.2 (htrue _ s hpos hs' hconclusion.1)
    · cases hend
  · intro line s hs
    exact Checker.checkFrom_forall (I := fun k line => Checker.Placed d.steps k line)
      (Q := fun line s => s.CitesInScope d.steps line)
      (fun k line s k' hk hs hc => ⟨hk.check hs hc, Checker.citesInScope_of_check hk hs hc⟩)
      d.steps Checker.start 1 Checker.placed_start Nat.one_pos hstart hfrom line s
      (Checker.step?_lt hs) hs

/-- The four clauses on two variables lead to falsity by cases on the first. -/
def Derivation.twoCases : Derivation :=
  let given (l m : Literal) : Step := ⟨0, .clause (.ofList [l, m]), .premise [] ""⟩
  ⟨[given ⟨0, true⟩ ⟨1, true⟩, given ⟨0, true⟩ ⟨1, false⟩,
    given ⟨0, false⟩ ⟨1, true⟩, given ⟨0, false⟩ ⟨1, false⟩,
    ⟨1, .literal ⟨0, true⟩, .assumption⟩,
    ⟨1, .literal ⟨1, true⟩, .unitResolution 3 [5]⟩,
    ⟨1, .literal ⟨0, false⟩, .unitResolution 4 [6]⟩,
    ⟨1, .bottom, .contradiction 7 5⟩,
    ⟨1, .literal ⟨0, false⟩, .assumption⟩,
    ⟨1, .literal ⟨1, true⟩, .unitResolution 1 [9]⟩,
    ⟨1, .literal ⟨0, true⟩, .unitResolution 2 [10]⟩,
    ⟨1, .bottom, .contradiction 11 9⟩,
    ⟨0, .bottom, .caseAnalysis [(5, 8), (9, 12)]⟩]⟩

theorem Derivation.unsatisfiable_twoCases :
    Derivation.twoCases.check = .ok () ∧ Derivation.twoCases.premises.length = 4 ∧
      (¬∃ a : Assignment, a.satisfies Derivation.twoCases.premises) ∧
      ∀ line s, Checker.step? Derivation.twoCases.steps line = some s →
        s.CitesInScope Derivation.twoCases.steps line :=
  ⟨rfl, rfl, Derivation.unsatisfiable_of_check Derivation.twoCases rfl⟩

end Elenchus
