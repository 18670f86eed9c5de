import Elenchus.Proofs.Search.Move

/-!
# Why a failed node is refuted

`Supported` is the invariant of a search: it reads the trail from its first literal on and says what
each literal rests on.  A literal is forced by a clause that has been used, or it is pure, or it is
the case of a split that is open; and a second case stands only where the first one is refuted.

What has been refuted is said of assignments (`Refuted`): none satisfies the clauses that have been
used and all cases that are open.  Pure literals rest on no clause and on no case, so an assignment
need not agree with them.  No conflict needs it to (`Supported.holds_or_idle`): all clauses with the
negation of a pure literal are satisfied when it is made true, and stay so as long as it is there,
whereas the clauses that force a literal or fail a node are not.

`Config.Valid` puts the invariant together, and `Move.valid` preserves it.
-/

namespace Elenchus.Search

/-- The literal of the case that is open. -/
def Split.chosen (split : Split) : Literal :=
  if split.negated then split.literal.negate else split.literal

theorem Split.var_chosen (split : Split) : split.chosen.var = split.literal.var := by
  unfold chosen
  split <;> rfl

section
variable (clauses : List (Clause × Nat))

/-- An assignment satisfies the clauses at some positions. -/
def SatisfiesAt (a : Assignment) (positions : List Nat) : Prop :=
  ∀ c ∈ clauses, c.2 ∈ positions → c.1.holds a = true

/-- No assignment satisfies the clauses at some positions and the open cases. -/
def Refuted (positions : List Nat) (splits : List Split) : Prop :=
  ∀ a : Assignment, SatisfiesAt clauses a positions →
    ¬∀ split ∈ splits, split.chosen.holds a = true

/-- What each literal of a trail, the latest first, rests on. -/
inductive Supported (involved : List Nat) : List Split → List Literal → Prop
  | start : Supported involved [] []
  | forced {splits : List Split} {ls : List Literal} {c : Clause × Nat} {l : Literal} :
      Supported involved splits ls → c ∈ clauses → c.2 ∈ involved →
      (∀ m ∈ c.1.literals, m ∉ ls) → (∀ m ∈ c.1.literals, m ≠ l → m.negate ∈ ls) →
      Supported involved splits (l :: ls)
  | pure {splits : List Split} {ls : List Literal} {l : Literal} :
      Supported involved splits ls →
      (∀ c ∈ clauses, l.negate ∈ c.1.literals → ∃ m ∈ c.1.literals, m ∈ ls) →
      Supported involved splits (l :: ls)
  | firstCase {splits : List Split} {ls : List Literal} {l : Literal} :
      Supported involved splits ls → Supported involved (⟨l, ls.length, false⟩ :: splits) (l :: ls)
  | secondCase {splits : List Split} {ls : List Literal} {l : Literal} :
      Supported involved splits ls → Refuted clauses involved (⟨l, ls.length, false⟩ :: splits) →
      Supported involved (⟨l, ls.length, true⟩ :: splits) (l.negate :: ls)

end

section
variable {clauses : List (Clause × Nat)} {involved involved' : List Nat} {splits : List Split}
  {ls : List Literal}

/-! ## More clauses used -/

theorem Refuted.mono (h : Refuted clauses involved splits) (hsub : ∀ p ∈ involved, p ∈ involved') :
    Refuted clauses involved' splits :=
  fun a hsat => h a fun c hc hp => hsat c hc (hsub _ hp)

theorem Supported.mono (h : Supported clauses involved splits ls)
    (hsub : ∀ p ∈ involved, p ∈ involved') : Supported clauses involved' splits ls := by
  induction h with
  | start => exact .start
  | forced _ hc hp hnot hfalse ih => exact .forced ih hc (hsub _ hp) hnot hfalse
  | pure _ hneg ih => exact .pure ih hneg
  | firstCase _ ih => exact .firstCase ih
  | secondCase _ hrefuted ih => exact .secondCase ih (hrefuted.mono hsub)

/-! ## Conflicts -/

/-- An assignment that satisfies the clauses used and the open cases agrees with every literal of
the trail, save those whose negation occurs in satisfied clauses only. -/
theorem Supported.holds_or_idle {a : Assignment} (h : Supported clauses involved splits ls)
    (hsat : SatisfiesAt clauses a involved)
    (hcases : ∀ split ∈ splits, split.chosen.holds a = true) :
    ∀ l ∈ ls, l.holds a = true ∨
      ∀ c ∈ clauses, l.negate ∈ c.1.literals → ∃ m ∈ c.1.literals, m ∈ ls := by
  have hweaken {l k : Literal} {ls : List Literal}
      (hidle : ∀ c ∈ clauses, l.negate ∈ c.1.literals → ∃ m ∈ c.1.literals, m ∈ ls) :
      ∀ c ∈ clauses, l.negate ∈ c.1.literals → ∃ m ∈ c.1.literals, m ∈ k :: ls := by
    intro c hc hneg
    obtain ⟨m, hm, hmem⟩ := hidle c hc hneg
    exact ⟨m, hm, List.mem_cons_of_mem _ hmem⟩
  induction h with
  | start => exact List.forall_mem_nil _
  | @forced splits ls c l _ hc hp hnot hfalse ih =>
      have htail := ih hcases
      refine List.forall_mem_cons.mpr ⟨Or.inl ?_, fun m hm => (htail m hm).imp_right hweaken⟩
      -- The clause holds, and no literal of it but `l` can be the reason.
      obtain ⟨m, hm, htrue⟩ := List.any_eq_true.mp (hsat c hc hp)
      by_cases hml : m = l
      · rw [← hml]
        exact htrue
      · rcases htail m.negate (hfalse m hm hml) with hneg | hidle
        · rw [Literal.holds_negate, htrue] at hneg
          cases hneg
        · rw [Literal.negate_negate] at hidle
          obtain ⟨k, hk, hmem⟩ := hidle c hc hm
          exact absurd hmem (hnot k hk)
  | pure _ hneg ih =>
      exact List.forall_mem_cons.mpr
        ⟨Or.inr (hweaken hneg), fun m hm => (ih hcases m hm).imp_right hweaken⟩
  | firstCase _ ih =>
      obtain ⟨hchosen, hcases⟩ := List.forall_mem_cons.mp hcases
      exact List.forall_mem_cons.mpr
        ⟨Or.inl hchosen, fun m hm => (ih hcases m hm).imp_right hweaken⟩
  | secondCase _ _ ih =>
      obtain ⟨hchosen, hcases⟩ := List.forall_mem_cons.mp hcases
      exact List.forall_mem_cons.mpr
        ⟨Or.inl hchosen, fun m hm => (ih hcases m hm).imp_right hweaken⟩

/-- A clause used whose literals are all false refutes the open cases. -/
theorem Supported.refuted {c : Clause × Nat} (h : Supported clauses involved splits ls)
    (hc : c ∈ clauses) (hp : c.2 ∈ involved) (hnot : ∀ m ∈ c.1.literals, m ∉ ls)
    (hfalse : ∀ m ∈ c.1.literals, m.negate ∈ ls) : Refuted clauses involved splits := by
  intro a hsat hcases
  obtain ⟨m, hm, htrue⟩ := List.any_eq_true.mp (hsat c hc hp)
  rcases h.holds_or_idle hsat hcases m.negate (hfalse m hm) with hneg | hidle
  · rw [Literal.holds_negate, htrue] at hneg
    cases hneg
  · rw [Literal.negate_negate] at hidle
    obtain ⟨k, hk, hmem⟩ := hidle c hc hm
    exact hnot k hk hmem

/-! ## Backtracking -/

/-- Below the case of the innermost split, the trail is the one from before the split. -/
theorem Supported.unwind {split : Split} {outer : List Split}
    (h : Supported clauses involved (split :: outer) ls) :
    ∃ inner below, ls = inner ++ split.chosen :: below ∧ split.mark = below.length ∧
      Supported clauses involved outer below ∧
      (split.negated = true →
        Refuted clauses involved ({ split with negated := false } :: outer)) := by
  generalize hsplits : split :: outer = splits at h
  induction h with
  | start => cases hsplits
  | @forced _ _ _ l _ _ _ _ _ ih =>
      obtain ⟨inner, below, rfl, hrest⟩ := ih hsplits
      exact ⟨l :: inner, below, rfl, hrest⟩
  | @pure _ _ l _ _ ih =>
      obtain ⟨inner, below, rfl, hrest⟩ := ih hsplits
      exact ⟨l :: inner, below, rfl, hrest⟩
  | @firstCase _ ls l h _ =>
      cases hsplits
      exact ⟨[], ls, rfl, rfl, h, fun h => absurd h Bool.false_ne_true⟩
  | @secondCase _ ls l h hrefuted _ =>
      cases hsplits
      exact ⟨[], ls, rfl, rfl, h, fun _ => hrefuted⟩

/-- When both cases of a split are refuted, so are the cases around it. -/
theorem Refuted.exhaust {split : Split} {outer : List Split} (hsecond : split.negated = true)
    (h : Refuted clauses involved (split :: outer))
    (hfirst : Refuted clauses involved ({ split with negated := false } :: outer)) :
    Refuted clauses involved outer := by
  intro a hsat hcases
  cases htrue : split.literal.holds a with
  | true => exact hfirst a hsat (List.forall_mem_cons.mpr ⟨htrue, hcases⟩)
  | false =>
      refine h a hsat (List.forall_mem_cons.mpr ⟨?_, hcases⟩)
      rw [Split.chosen, if_pos hsecond, Literal.holds_negate, htrue]
      rfl

/-! ## The invariant -/

/-- The trail fits the clauses and is supported, and a node that has failed is refuted. -/
structure Config.Valid (clauses : List (Clause × Nat)) (k : Config) : Prop where
  fits : Fits clauses k.state.trail
  supported : Supported clauses k.state.involved k.splits k.state.trail.literals
  refuted : k.failed = true → Refuted clauses k.state.involved k.splits

/-- The invariant in the case that a split is given up. -/
theorem Config.Valid.unwind {split : Split} {outer : List Split} {s : State} {failed : Bool}
    (h : Config.Valid clauses ⟨split :: outer, s, failed⟩) :
    Fits clauses (s.trail.undo split.mark) ∧
      Supported clauses s.involved outer (s.trail.undo split.mark).literals ∧
      split.mark = (s.trail.undo split.mark).literals.length ∧
      (s.trail.undo split.mark).value? split.literal.var = none ∧
      split.literal.var < (s.trail.undo split.mark).values.size ∧
      (split.negated = true →
        Refuted clauses s.involved ({ split with negated := false } :: outer)) := by
  obtain ⟨inner, below, htrail, hmark, hbelow, hfirst⟩ := h.supported.unwind
  have hcut : s.trail.literals = (inner ++ [split.chosen]) ++ below := by
    rw [List.append_assoc]
    exact htrail
  have hfits := h.fits.undo hcut
  have hliterals := Trail.literals_undo hcut
  rw [← hmark] at hfits hliterals
  refine ⟨hfits, ?_, ?_, ?_, ?_, hfirst⟩
  · rw [hliterals]
    exact hbelow
  · rw [hliterals]
    exact hmark
  · rw [hfits.inStep.value?_eq_none, hliterals]
    have hnodup := h.fits.inStep.2
    rw [htrail, List.map_append, List.nodup_append, List.map_cons, Split.var_chosen] at hnodup
    exact (List.nodup_cons.mp hnodup.2.1).1
  · rw [Trail.size_undo, ← Split.var_chosen]
    refine Trail.lt_size_of_value? ((h.fits.inStep.1 _ split.chosen.positive).mpr ?_)
    rw [htrail]
    exact List.mem_append_right _ List.mem_cons_self

theorem Move.valid {options : Options} {k k' : Config} (h : Move options clauses k k')
    (hk : k.Valid clauses) : k'.Valid clauses := by
  cases h with
  | @force splits s c l hc hunit =>
      obtain ⟨_, _, hnot, hfalse⟩ := Trail.status_eq_unit hk.fits.inStep hunit
      have hsub : ∀ p ∈ s.involved, p ∈ (s.force options l c.2).involved := fun p hp =>
        (State.mem_involved_force options s l c.2).mpr (Or.inr hp)
      refine ⟨?_, ?_, fun h => absurd h Bool.false_ne_true⟩
      · rw [State.trail_force]
        exact hk.fits.force hc hunit
      · rw [State.trail_force]
        exact .forced (hk.supported.mono hsub) hc
          ((State.mem_involved_force options s l c.2).mpr (Or.inl rfl)) hnot hfalse
  | @fail splits s c hc hfalsified =>
      obtain ⟨hnot, hfalse⟩ := Trail.status_eq_falsified hk.fits.inStep hfalsified
      have hsub : ∀ p ∈ s.involved, p ∈ (s.fail options c.2).involved := fun p hp =>
        (State.mem_involved_fail options s c.2).mpr (Or.inr hp)
      have hsupported : Supported clauses (s.fail options c.2).involved splits s.trail.literals :=
        hk.supported.mono hsub
      refine ⟨?_, ?_, ?_⟩
      · rw [State.trail_fail]
        exact hk.fits
      · rw [State.trail_fail]
        exact hsupported
      · intro _
        exact hsupported.refuted hc ((State.mem_involved_fail options s c.2).mpr (Or.inl rfl))
          hnot hfalse
  | @pure splits s l hfree hlt hneg =>
      refine ⟨?_, ?_, fun h => absurd h Bool.false_ne_true⟩
      · rw [State.trail_assignPure]
        exact hk.fits.assign hfree hlt
      · rw [State.trail_assignPure, State.involved_assignPure]
        exact .pure hk.supported fun c hc hmem =>
          (Trail.satisfies_iff hk.fits.inStep).mp (hneg c hc hmem)
  | @decide splits s l hfree hlt =>
      refine ⟨?_, ?_, fun h => absurd h Bool.false_ne_true⟩
      · rw [State.trail_decide]
        exact hk.fits.assign hfree hlt
      · rw [State.trail_decide, State.involved_decide]
        exact .firstCase hk.supported
  | @retry split outer s hfirst =>
      obtain ⟨hfits, hsupported, hmark, hfree, hlt, _⟩ := hk.unwind
      refine ⟨?_, ?_, fun h => absurd h Bool.false_ne_true⟩
      · rw [State.trail_decide, State.trail_back]
        exact hfits.assign hfree hlt
      · rw [State.trail_decide, State.involved_decide, State.trail_back, State.involved_back]
        obtain ⟨l, mark, negated⟩ := split
        cases hfirst
        -- The first case has failed, so it is refuted.
        have hnext := Supported.secondCase hsupported (l := l)
          (by rw [← hmark]; exact hk.refuted rfl)
        rw [← hmark] at hnext
        exact hnext
  | @exhaust split outer s hsecond =>
      obtain ⟨hfits, hsupported, _, _, _, hrefuted⟩ := hk.unwind
      refine ⟨?_, ?_, ?_⟩
      · rw [State.trail_log, State.trail_back]
        exact hfits
      · rw [State.trail_log, State.involved_log, State.trail_back, State.involved_back]
        exact hsupported
      · intro _
        rw [State.involved_log, State.involved_back]
        exact (hk.refuted rfl).exhaust hsecond (hrefuted hsecond)

theorem Moves.valid {options : Options} {k k' : Config} (h : Moves options clauses k k')
    (hk : k.Valid clauses) : k'.Valid clauses := by
  induction h with
  | refl => exact hk
  | tail _ hmove ih => exact hmove.valid ih

end

end Elenchus.Search
