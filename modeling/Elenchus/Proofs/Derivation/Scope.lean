import Elenchus.Proofs.Derivation.Checker

/-!
# Scopes and citations

What the checker keeps of the scopes is a matter of the steps alone.  A step is in an open scope if
since then no step has left that scope, by standing less deep or by opening another case at the same
depth (`Checker.Within`).  `Checker.Placed` says this of a state of the checker, and every step that
is accepted keeps it.

So what a derivation may cite can be said without the checker: `Step.CitesInScope`.  A step rests on
earlier steps of scopes that are still open, none of them a choice of the search, and a case
analysis on cases that were opened in its own scope and are closed.  `citesInScope_of_check` is the
statement for accepted derivations.
-/

namespace Elenchus

namespace Checker

/-! ## Where the lines of the open scopes stand -/

section
variable (steps : List Step)

/-- No step after one number and up to another leaves the scope that is open at the first, which is
at the given depth. -/
def Within (depth first last : Nat) : Prop :=
  ∀ n s, first < n → n ≤ last → step? steps n = some s →
    depth ≤ s.depth ∧ (s.justification = .assumption → depth < s.depth)

/-- The lines of a state of the checker stand where the steps say, before the step `line`. -/
structure Placed (k : Checker) (line : Nat) : Prop where
  /-- A line of an open scope was written at its depth, after the opening of the scope, and has not
  been left since. -/
  lines : ∀ lines outer, lines :: outer <:+ k.stack → ∀ n ∈ lines,
    n < line ∧ (∀ first, lines.getLast? = some first → first ≤ n) ∧
      (∃ s, step? steps n = some s ∧ s.depth = outer.length) ∧
      Within steps outer.length n (line - 1)
  /-- Every scope but the outermost was opened by an assumption. -/
  opened : ∀ lines next rest, lines :: next :: rest <:+ k.stack →
    ∃ first s, lines.getLast? = some first ∧ step? steps first = some s ∧
      s.justification = .assumption
  /-- A closed case reaches from its assumption to the last line of its scope. -/
  closed : ∀ case ∈ k.closed, case.first ≤ case.last ∧ case.last < line ∧
    (∃ s, step? steps case.first = some s ∧ s.depth = case.depth ∧ s.justification = .assumption) ∧
    (∃ s, step? steps case.last = some s ∧ s.depth = case.depth) ∧
    Within steps case.depth case.first case.last
  /-- No assumption stands at the outermost depth. -/
  base : Within steps 0 0 (line - 1)
  /-- The choices of a search may not be cited. -/
  uncitable : ∀ n s, n < line → step? steps n = some s → s.justification = .pureLiteral →
    n ∈ k.uncitable

end

section
variable {steps : List Step} {k k' : Checker} {line : Nat} {s : Step}

theorem Within.mono {depth first first' last last' : Nat} (h : Within steps depth first last)
    (hfirst : first ≤ first') (hlast : last' ≤ last) : Within steps depth first' last' :=
  fun n t hn hn' ht => h n t (Nat.lt_of_le_of_lt hfirst hn) (Nat.le_trans hn' hlast) ht

/-- A step that does not leave the scope stays within it. -/
theorem Within.step {depth first : Nat} (h : Within steps depth first (line - 1))
    (hs : step? steps line = some s) (hdepth : depth ≤ s.depth)
    (hopen : s.justification = .assumption → depth < s.depth) : Within steps depth first line := by
  intro n t hn hn' ht
  rcases Nat.eq_or_lt_of_le hn' with rfl | hlt
  · rw [hs] at ht
    cases ht
    exact ⟨hdepth, hopen⟩
  · exact h n t hn (by omega) ht

theorem placed_start : Placed steps start 1 where
  lines := by
    intro lines outer hsuffix n hn
    rcases List.suffix_cons_iff.mp hsuffix with h | h
    · cases h
      exact absurd hn List.not_mem_nil
    · exact absurd (List.suffix_nil.mp h) (List.cons_ne_nil _ _)
  opened := by
    intro lines next rest hsuffix
    have := hsuffix.length_le
    simp [stack, start] at this
  closed := fun _ h => absurd h List.not_mem_nil
  base := fun n t hn hn' _ => absurd hn (by omega)
  uncitable := by
    intro n t hn ht _
    rw [step?, if_pos (by omega)] at ht
    cases ht

theorem closeScope_cases {lines : List Nat} {depth : Nat} {case : ClosedCase}
    (h : case ∈ closeScope lines depth) :
    lines.getLast? = some case.first ∧ lines.head? = some case.last ∧ case.depth = depth := by
  unfold closeScope at h
  split at h
  · rename_i first last hfirst hlast
    rw [List.mem_singleton] at h
    subst h
    exact ⟨hfirst, hlast, rfl⟩
  · exact absurd h List.not_mem_nil

/-- The lines of a scope that is left become a closed case at the place where they stood. -/
theorem Placed.pop (h : Placed steps k line) : Placed steps k.pop line := by
  obtain ⟨scope, outer, closed, uncitable⟩ := k
  cases outer with
  | nil => exact h
  | cons next rest =>
      have htail : ∀ {stack : List (List Nat)}, stack <:+ next :: rest →
          stack <:+ scope :: next :: rest := fun hs => hs.trans (List.suffix_cons _ _)
      refine ⟨fun lines outer hs => h.lines lines outer (htail hs),
        fun lines next' rest' hs => h.opened lines next' rest' (htail hs), ?_, h.base, h.uncitable⟩
      intro case hcase
      rcases List.mem_append.mp hcase with hcase | hcase
      · obtain ⟨hfirst, hlast, hdepth⟩ := closeScope_cases hcase
        have hscope := h.lines scope (next :: rest) (List.suffix_refl _)
        obtain ⟨_, _, ⟨s, hs, hsd⟩, hwithin⟩ := hscope _ (List.mem_of_getLast? hfirst)
        obtain ⟨hlt, hle, hend, _⟩ := hscope _ (List.mem_of_head? hlast)
        obtain ⟨_, t, ht, hts, hassume⟩ := h.opened scope next rest (List.suffix_refl _)
        rw [hfirst] at ht
        cases ht
        rw [hs] at hts
        cases hts
        rw [hdepth]
        exact ⟨hle _ hfirst, hlt, ⟨s, hs, hsd, hassume⟩, hend,
          hwithin.mono (Nat.le_refl _) (by omega)⟩
      · exact h.closed case hcase

theorem Placed.leave (h : Placed steps k line) (depth : Nat) : Placed steps (k.leave depth) line :=
  leave_induction (P := fun k => Placed steps k line) (fun _ _ hk => hk.pop) h depth

/-- A scope on the stack is no deeper than the innermost one. -/
theorem length_le_depth {lines : List Nat} {outer : List (List Nat)}
    (h : lines :: outer <:+ k.stack) : outer.length ≤ k.depth :=
  Nat.le_of_succ_le_succ h.length_le

theorem step?_lt (h : step? steps line = some s) : 0 < line := by
  rw [step?] at h
  split at h
  · cases h
  · omega

theorem mem_of_step? (h : step? steps line = some s) : s ∈ steps := by
  rw [step?, if_neg (Nat.pos_iff_ne_zero.mp (step?_lt h))] at h
  exact List.mem_of_getElem? h

/-- A line of an open scope keeps its place at a step that does not leave the scope. -/
theorem Placed.lines_step {lines : List Nat} {outer : List (List Nat)} {n : Nat}
    (h : Placed steps k line) (hs : step? steps line = some s)
    (hsuffix : lines :: outer <:+ k.stack) (hn : n ∈ lines) (hdepth : outer.length ≤ s.depth)
    (hassume : s.justification = .assumption → outer.length < s.depth) :
    n < line + 1 ∧ (∀ first, lines.getLast? = some first → first ≤ n) ∧
      (∃ s, step? steps n = some s ∧ s.depth = outer.length) ∧
      Within steps outer.length n (line + 1 - 1) := by
  obtain ⟨hlt, hfirst, hplace, hwithin⟩ := h.lines lines outer hsuffix n hn
  exact ⟨Nat.lt_succ_of_lt hlt, hfirst, hplace, hwithin.step hs hdepth hassume⟩

/-- With one more line a scope begins where it did, or with that line if it had none. -/
theorem getLast?_cons_cases {first : Nat} {lines : List Nat}
    (h : (line :: lines).getLast? = some first) :
    lines = [] ∧ first = line ∨ lines.getLast? = some first := by
  cases lines with
  | nil =>
      cases h
      exact Or.inl ⟨rfl, rfl⟩
  | cons n rest =>
      rw [List.getLast?_cons_cons] at h
      exact Or.inr h

/-- An assumption opens a scope of its own, one deeper than the scopes that stay open. -/
theorem Placed.enter (h : Placed steps k line) (hs : step? steps line = some s)
    (hdepth : s.depth = k.depth + 1) (hassume : s.justification = .assumption) :
    Placed steps (k.enter line) (line + 1) where
  lines := by
    intro lines outer hsuffix n hn
    rcases List.suffix_cons_iff.mp hsuffix with hcons | hsuffix
    · cases hcons
      have hn : n = line := List.mem_singleton.mp hn
      subst hn
      refine ⟨Nat.lt_succ_self _, ?_, ⟨s, hs, hdepth⟩, fun m t hm hm' _ => absurd hm (by omega)⟩
      intro first hfirst
      cases hfirst
      exact Nat.le_refl _
    · have := length_le_depth hsuffix
      exact h.lines_step hs hsuffix hn (by omega) (fun _ => by omega)
  opened := by
    intro lines next rest hsuffix
    rcases List.suffix_cons_iff.mp hsuffix with hcons | hsuffix
    · cases hcons
      exact ⟨line, s, rfl, hs, hassume⟩
    · exact h.opened lines next rest hsuffix
  closed := by
    intro case hcase
    obtain ⟨hle, hlt, hrest⟩ := h.closed case hcase
    exact ⟨hle, Nat.lt_succ_of_lt hlt, hrest⟩
  base := h.base.step hs (Nat.zero_le _) (fun _ => by omega)
  uncitable := by
    intro n t hn ht hpure
    rcases Nat.eq_or_lt_of_le (Nat.le_of_lt_succ hn) with rfl | hlt
    · rw [hs] at ht
      cases ht
      rw [hassume] at hpure
      cases hpure
    · exact h.uncitable n t hlt ht hpure

/-- Any other step is written at the depth of the innermost scope. -/
theorem Placed.write (h : Placed steps k line) (hs : step? steps line = some s)
    (hdepth : s.depth = k.depth) (hassume : s.justification ≠ .assumption) :
    Placed steps (k.write line s) (line + 1) where
  lines := by
    intro lines outer hsuffix n hn
    rcases List.suffix_cons_iff.mp hsuffix with hcons | hsuffix
    · cases hcons
      rcases List.mem_cons.mp hn with rfl | hn
      · refine ⟨Nat.lt_succ_self _, ?_, ⟨s, hs, hdepth⟩,
          fun m t hm hm' _ => absurd hm (by omega)⟩
        intro first hfirst
        rcases getLast?_cons_cases hfirst with ⟨_, rfl⟩ | hlast
        · exact Nat.le_refl _
        · exact Nat.le_of_lt
            (h.lines _ _ (List.suffix_refl _) first (List.mem_of_getLast? hlast)).1
      · obtain ⟨hlt, hle, hplace, hwithin⟩ := h.lines_step hs (List.suffix_refl _) hn
          (Nat.le_of_eq hdepth.symm) (fun ha => absurd ha hassume)
        refine ⟨hlt, ?_, hplace, hwithin⟩
        intro first hfirst
        rcases getLast?_cons_cases hfirst with ⟨hnil, _⟩ | hlast
        · rw [hnil] at hn
          exact absurd hn List.not_mem_nil
        · exact hle first hlast
    · have := length_le_depth (hsuffix.trans (List.suffix_cons k.scope k.outer))
      exact h.lines_step hs (hsuffix.trans (List.suffix_cons _ _)) hn (by omega)
        (fun ha => absurd ha hassume)
  opened := by
    intro lines next rest hsuffix
    rcases List.suffix_cons_iff.mp hsuffix with hcons | hsuffix
    · obtain ⟨rfl, houter⟩ := List.cons.inj hcons
      obtain ⟨first, t, hfirst, ht⟩ :=
        h.opened k.scope next rest (by rw [houter]; exact List.suffix_refl _)
      refine ⟨first, t, ?_, ht⟩
      show (line :: k.scope).getLast? = some first
      rw [List.getLast?_cons, hfirst]
      rfl
    · exact h.opened lines next rest (hsuffix.trans (List.suffix_cons _ _))
  closed := by
    intro case hcase
    obtain ⟨hle, hlt, hrest⟩ := h.closed case hcase
    exact ⟨hle, Nat.lt_succ_of_lt hlt, hrest⟩
  base := h.base.step hs (Nat.zero_le _) (fun ha => absurd ha hassume)
  uncitable := by
    intro n t hn ht hpure
    show n ∈ if s.justification = .pureLiteral then line :: k.uncitable else k.uncitable
    rcases Nat.eq_or_lt_of_le (Nat.le_of_lt_succ hn) with rfl | hlt
    · rw [hs] at ht
      cases ht
      rw [if_pos hpure]
      exact List.mem_cons_self
    · have := h.uncitable n t hlt ht hpure
      split
      · exact List.mem_cons_of_mem _ this
      · exact this

/-- Every step that is accepted keeps the lines in their places. -/
theorem Placed.check (h : Placed steps k line) (hs : step? steps line = some s)
    (hk : k.check steps line s = .ok k') : Placed steps k' (line + 1) := by
  rcases check_cases hk with ⟨hassume, hpos, hle, _, rfl⟩ | ⟨hassume, hle, _, rfl⟩
  · exact (h.leave _).enter hs (by rw [depth_leave]; omega) hassume
  · exact (h.leave _).write hs (by rw [depth_leave]; omega) hassume

/-- A visible step stands in a scope that the steps since then have not left. -/
theorem Placed.visible (h : Placed steps k line) {target : Nat} (hv : k.isVisible target = true) :
    ∃ t, step? steps target = some t ∧ t.depth ≤ k.depth ∧
      Within steps t.depth target (line - 1) := by
  obtain ⟨lines, hlines, htarget⟩ := isVisible_iff.mp hv
  obtain ⟨front, back, hstack⟩ := List.append_of_mem hlines
  have hsuffix : lines :: back <:+ k.stack := ⟨front, hstack.symm⟩
  obtain ⟨_, _, ⟨t, ht, htd⟩, hwithin⟩ := h.lines lines back hsuffix target htarget
  rw [← htd] at hwithin
  exact ⟨t, ht, htd ▸ length_le_depth hsuffix, hwithin⟩

/-- What was opened after the innermost open scope has stayed within that scope. -/
theorem Placed.within_scope (h : Placed steps k line) {first : Nat}
    (hfirst : k.scope.getLast?.getD 0 < first) : Within steps k.depth first (line - 1) := by
  cases hlast : k.scope.getLast? with
  | some opened =>
      rw [hlast] at hfirst
      obtain ⟨_, _, _, hwithin⟩ :=
        h.lines k.scope k.outer (List.suffix_refl _) opened (List.mem_of_getLast? hlast)
      exact hwithin.mono (Nat.le_of_lt hfirst) (Nat.le_refl _)
  | none =>
      cases houter : k.outer with
      | nil =>
          rw [show k.depth = 0 by rw [depth, houter]; rfl]
          exact h.base.mono (Nat.zero_le _) (Nat.le_refl _)
      | cons next rest =>
          have hsuffix : k.scope :: next :: rest <:+ k.stack := by
            rw [← houter]
            exact List.suffix_refl _
          obtain ⟨opened, t, hopened, _⟩ := h.opened k.scope next rest hsuffix
          rw [hlast] at hopened
          cases hopened

end

end Checker

/-! ## Citations -/

/-- The steps on which a justification rests. -/
def Justification.cited : Justification → List Nat
  | .unitResolution clause antecedents => clause :: antecedents
  | .contradiction positive negative => [positive, negative]
  | .emptyClause clause => [clause]
  | _ => []

/-- The cases on which a justification rests. -/
def Justification.cases : Justification → List (Nat × Nat)
  | .caseAnalysis cases => cases
  | _ => []

/-- The step with number `line` rests on nothing outside its scope. -/
structure Step.CitesInScope (steps : List Step) (line : Nat) (s : Step) : Prop where
  /-- What is cited stands earlier, is no choice of the search, and its scope is still open. -/
  cited : ∀ n ∈ s.justification.cited, n < line ∧ ∃ t, Checker.step? steps n = some t ∧
    t.justification ≠ .pureLiteral ∧ t.depth ≤ s.depth ∧ Checker.Within steps t.depth n line
  /-- A case that is cited was opened by an assumption in the scope of the step, reaches to a
  falsity at its own depth, and is left. -/
  cases : ∀ case ∈ s.justification.cases, case.1 ≤ case.2 ∧ case.2 < line ∧
    (∃ t, Checker.step? steps case.1 = some t ∧ t.depth = s.depth + 1 ∧
      t.justification = .assumption) ∧
    (∃ t, Checker.step? steps case.2 = some t ∧ t.depth = s.depth + 1 ∧ t.statement = .bottom) ∧
    Checker.Within steps (s.depth + 1) case.1 case.2 ∧ Checker.Within steps s.depth case.1 line

namespace Checker

section
variable {steps : List Step} {k k' : Checker} {line : Nat} {s : Step}

/-- What a step may cite from a state: an earlier step, no choice of the search, whose scope has not
been left before the step `line`. -/
def MayCite (steps : List Step) (k : Checker) (line n : Nat) : Prop :=
  n < line ∧ ∃ t, step? steps n = some t ∧ t.justification ≠ .pureLiteral ∧ t.depth ≤ k.depth ∧
    Within steps t.depth n (line - 1)

theorem Placed.citedClause (h : Placed steps k line) {n : Nat} {c : Clause}
    (hc : k.citedClause steps line n = .ok c) : MayCite steps k line n := by
  obtain ⟨hlt, hv, depth, propositions, source, ht⟩ := citedClause_cases hc
  obtain ⟨t, ht', hdepth, hwithin⟩ := h.visible hv
  rw [ht] at ht'
  cases ht'
  exact ⟨hlt, _, ht, Justification.noConfusion, hdepth, hwithin⟩

theorem Placed.citedLiteral (h : Placed steps k line) {n : Nat} {l : Literal}
    (hl : k.citedLiteral steps line n = .ok l) : MayCite steps k line n := by
  obtain ⟨hlt, hv, hcitable, _⟩ := citedLiteral_cases hl
  obtain ⟨t, ht, hdepth, hwithin⟩ := h.visible hv
  exact ⟨hlt, t, ht, fun hpure => hcitable (h.uncitable n t hlt ht hpure), hdepth, hwithin⟩

theorem Placed.cited (h : Placed steps k line) (hj : k.justify steps line s = .ok ()) :
    ∀ n ∈ s.justification.cited, MayCite steps k line n := by
  intro n hn
  cases hjust : s.justification with
  | premise | assumption | pureLiteral | caseAnalysis =>
      rw [hjust] at hn
      exact absurd hn List.not_mem_nil
  | unitResolution clause antecedents =>
      obtain ⟨derived, _, refuted, hc, hr⟩ := unitResolution_cases hjust hj
      rw [hjust] at hn
      rcases List.mem_cons.mp hn with rfl | hn
      · exact h.citedClause hc
      · obtain ⟨i, hi, rfl⟩ := List.getElem_of_mem hn
        exact h.citedLiteral (hr.get hi (hr.length_eq ▸ hi))
  | contradiction positive negative =>
      obtain ⟨_, l, hpos, hneg⟩ := contradiction_cases hjust hj
      rw [hjust] at hn
      rcases List.mem_cons.mp hn with rfl | hn
      · exact h.citedLiteral hpos
      · rw [List.mem_singleton.mp hn]
        exact h.citedLiteral hneg
  | emptyClause clause =>
      obtain ⟨_, c, hc, _⟩ := emptyClause_cases hjust hj
      rw [hjust] at hn
      rw [List.mem_singleton.mp hn]
      exact h.citedClause hc

/-- A case that may be cited stands in the innermost open scope. -/
theorem Placed.hypothesis (h : Placed steps k line) {case : Nat × Nat} {l : Literal}
    (hc : k.hypothesis steps k.depth case = .ok l) :
    case.1 ≤ case.2 ∧ case.2 < line ∧
      (∃ t, step? steps case.1 = some t ∧ t.depth = k.depth + 1 ∧ t.justification = .assumption) ∧
      (∃ t, step? steps case.2 = some t ∧ t.depth = k.depth + 1 ∧ t.statement = .bottom) ∧
      Within steps (k.depth + 1) case.1 case.2 ∧ Within steps k.depth case.1 (line - 1) := by
  obtain ⟨hclosed, hopened, ⟨t, ht, hbottom⟩, _⟩ := hypothesis_cases hc
  obtain ⟨hle, hlt, hfirst, ⟨u, hu, hdepth⟩, hwithin⟩ := h.closed _ hclosed
  rw [ht] at hu
  cases hu
  exact ⟨hle, hlt, hfirst, ⟨t, ht, hdepth, hbottom⟩, hwithin, h.within_scope hopened⟩

/-- A step that is accepted rests on nothing outside its scope. -/
theorem citesInScope_of_check (h : Placed steps k line) (hs : step? steps line = some s)
    (hk : k.check steps line s = .ok k') : s.CitesInScope steps line := by
  rcases check_cases hk with ⟨hassume, _, _, _, _⟩ | ⟨hassume, hle, hj, _⟩
  · constructor
    · intro n hn
      rw [hassume] at hn; exact absurd hn List.not_mem_nil
    · intro case hcase
      rw [hassume] at hcase; exact absurd hcase List.not_mem_nil
  · have hdepth : (k.leave s.depth).depth = s.depth := by rw [depth_leave]; omega
    have hplaced := h.leave s.depth
    constructor
    · intro n hn
      obtain ⟨hlt, t, ht, hpure, htd, hwithin⟩ := hplaced.cited hj n hn
      rw [hdepth] at htd
      exact ⟨hlt, t, ht, hpure, htd, hwithin.step hs htd (fun ha => absurd ha hassume)⟩
    · intro case hcase
      cases hjust : s.justification with
      | caseAnalysis cases =>
          obtain ⟨_, one, other, l, rfl, hone, hother⟩ := caseAnalysis_cases hjust hj
          have hcited : ∃ m, (k.leave s.depth).hypothesis steps s.depth case = .ok m := by
            rw [hjust] at hcase
            rcases List.mem_cons.mp hcase with rfl | hcase
            · exact ⟨_, hone⟩
            · rw [List.mem_singleton.mp hcase]
              exact ⟨_, hother⟩
          obtain ⟨m, hm⟩ := hcited
          obtain ⟨hle', hlt, hfirst, hlast, hinner, houter⟩ :=
            hplaced.hypothesis (l := m) (by rw [hdepth]; exact hm)
          rw [hdepth] at hfirst hlast hinner houter
          exact ⟨hle', hlt, hfirst, hlast, hinner,
            houter.step hs (Nat.le_refl _) (fun ha => absurd ha hassume)⟩
      | premise | assumption | pureLiteral | unitResolution | contradiction | emptyClause =>
          rw [hjust] at hcase
          exact absurd hcase List.not_mem_nil

end

end Checker

end Elenchus
