import Elenchus.Proofs.Search.Log

/-!
# The log read back

A log is played back from the empty assignment, without the search (`Playback.next`): a decision
opens a case and remembers the values before it, a backtrack takes the innermost case back by erasing
the variables that got a value in it.  `Playback.Admits` is what must be so where an event comes:

    decision      its level is one more than the count of the open cases; the literal is open
    propagation   the literal is open and all others of the clause are false
    pureLiteral   the literal is open and its negation occurs in satisfied clauses only
    conflict      all literals of the clause are false
    backtrack     erasing restores the values from before the innermost case
    exhausted     two cases have been closed at the level, one on the variable's one literal and one
                  on the other, and each failed

`faithful_trace` says that every event of a search's log is admitted where it comes, and what the
values and the open cases are at its end.  The invariant is that the playback mirrors the search
(`Mirrors`), every open case having the part of the trail below it (`Nested`).
-/

namespace Elenchus.Search

/-! ## Playing a log back -/

/-- A case that has been taken back. -/
structure ClosedCase where
  literal : Literal
  /-- The event before it was taken back. -/
  ending : Option Event

/-- A case that is open. -/
structure OpenCase where
  literal : Literal
  /-- The values before it was opened. -/
  before : Nat → Option Bool
  /-- The variables that have got a value in it, outside of the cases within. -/
  assigned : List Nat
  /-- The cases closed at its level before it was opened, the latest first. -/
  earlier : List ClosedCase

/-- What has been made of a log so far. -/
structure Playback where
  values : Nat → Option Bool
  /-- The open cases, the innermost first. -/
  cases : List OpenCase
  /-- The cases closed within the innermost open case, the latest first. -/
  closed : List ClosedCase
  last : Option Event

/-- An event that ends a case: a conflict, or that both cases of a variable have failed. -/
inductive Event.Fails : Event → Prop
  | conflict (position : Nat) : Fails (.conflict position)
  | exhausted (v level : Nat) : Fails (.exhausted v level)

def ClosedCase.Failed (closed : ClosedCase) : Prop :=
  ∃ event, closed.ending = some event ∧ event.Fails

namespace Playback

/-- No variable has a value and no case is open. -/
def start : Playback := ⟨fun _ => none, [], [], none⟩

def truth? (r : Playback) (l : Literal) : Option Bool :=
  (r.values l.var).map (· == l.positive)

def assign (r : Playback) (l : Literal) : Playback :=
  { r with
    values := fun v => if v = l.var then some l.positive else r.values v
    cases := r.cases.modifyHead fun c => { c with assigned := l.var :: c.assigned } }

def openCase (r : Playback) (l : Literal) : Playback :=
  { r with cases := ⟨l, r.values, [], r.closed⟩ :: r.cases, closed := [] }

/-- The innermost case is taken back. -/
def closeCase (r : Playback) : Playback :=
  match r.cases with
  | [] => r
  | c :: outer =>
    { r with
      values := fun v => if v ∈ c.assigned then none else r.values v
      cases := outer
      closed := ⟨c.literal, r.last⟩ :: c.earlier }

/-- The effect of an event. -/
def apply (r : Playback) : Event → Playback
  | .decision l _ => (r.openCase l).assign l
  | .propagation l _ => r.assign l
  | .pureLiteral l _ => r.assign l
  | .conflict _ => r
  | .backtrack _ => r.closeCase
  | .exhausted _ _ => r

def next (r : Playback) (event : Event) : Playback := { r.apply event with last := some event }

/-- The playback after some events. -/
def after (r : Playback) (events : List Event) : Playback := events.foldl next r

/-- What is so where an event comes in the log of a search over some clauses. -/
def Admits (clauses : List Clause) (r : Playback) : Event → Prop
  | .decision l level => level = r.cases.length + 1 ∧ r.values l.var = none
  | .propagation l position =>
    r.values l.var = none ∧
      ∃ c, clauses[position]? = some c ∧ l ∈ c.literals ∧
        ∀ m ∈ c.literals, m ≠ l → r.truth? m = some false
  | .pureLiteral l level =>
    level = r.cases.length ∧ r.values l.var = none ∧
      ∀ c ∈ clauses, l.negate ∈ c.literals → ∃ m ∈ c.literals, r.truth? m = some true
  | .conflict position =>
    ∃ c, clauses[position]? = some c ∧ ∀ m ∈ c.literals, r.truth? m = some false
  | .backtrack level =>
    ∃ c outer, r.cases = c :: outer ∧ level = outer.length ∧ r.closeCase.values = c.before
  | .exhausted v level =>
    level = r.cases.length ∧
      ∃ first second, r.closed = [second, first] ∧ first.literal.var = v ∧
        second.literal = first.literal.negate ∧ first.Failed ∧ second.Failed

/-- Every event of a list is admitted where it comes. -/
def Follows (clauses : List Clause) (r : Playback) : List Event → Prop
  | [] => True
  | event :: events => r.Admits clauses event ∧ (r.next event).Follows clauses events

theorem follows_concat {clauses : List Clause} {r : Playback} {events : List Event}
    {event : Event} (h : r.Follows clauses events) (hnext : (r.after events).Admits clauses event) :
    r.Follows clauses (events ++ [event]) := by
  induction events generalizing r with
  | nil => exact ⟨hnext, trivial⟩
  | cons first events ih => exact ⟨h.1, ih h.2 hnext⟩

end Playback

/-! ## A log and its playback -/

/-- A log, the latest event first, all events of which are admitted, and what it leads to. -/
structure PlaysBack (clauses : List Clause) (events : List Event) (r : Playback) : Prop where
  follows : Playback.start.Follows clauses events.reverse
  after_eq : Playback.start.after events.reverse = r

section
variable {clauses : List Clause} {events : List Event} {r : Playback}

theorem plays_nil : PlaysBack clauses [] .start := ⟨trivial, rfl⟩

theorem PlaysBack.next {event : Event} (h : PlaysBack clauses events r)
    (hadmits : r.Admits clauses event) : PlaysBack clauses (event :: events) (r.next event) := by
  obtain ⟨hfollows, rfl⟩ := h
  constructor
  · rw [List.reverse_cons]
    exact Playback.follows_concat hfollows hadmits
  · rw [List.reverse_cons, Playback.after, List.foldl_append]
    rfl

end

/-! ## The playback mirrors the search -/

/-- The cases closed at the level of a split: none before its first case, and the first one before
its second. -/
def Split.Earlier (split : Split) (earlier : List ClosedCase) : Prop :=
  if split.negated then ∃ first : ClosedCase,
    earlier = [first] ∧ first.literal = split.literal ∧ first.Failed
  else earlier = []

/-- The splits of a search, its trail and the open cases of a playback: each case was opened on the
trail that its split marks, and what has been added since are its own literals. -/
inductive Nested : List Split → List Literal → List OpenCase → Prop
  | start {ls : List Literal} : Nested [] ls []
  | case {split : Split} {splits : List Split} {own below : List Literal} {c : OpenCase}
      {outer : List OpenCase} :
      Nested splits below outer → split.mark = below.length → c.literal = split.chosen →
      c.assigned = own.map Literal.var → (∀ v b, c.before v = some b ↔ ⟨v, b⟩ ∈ below) →
      split.Earlier c.earlier → Nested (split :: splits) (own ++ below) (c :: outer)

section
variable {splits : List Split} {ls : List Literal} {cases : List OpenCase}

theorem Nested.length_eq (h : Nested splits ls cases) : cases.length = splits.length := by
  induction h with
  | start => rfl
  | case _ _ _ _ _ _ ih => rw [List.length_cons, List.length_cons, ih]

/-- A literal is added in the innermost case. -/
theorem Nested.assign (h : Nested splits ls cases) (l : Literal) :
    Nested splits (l :: ls)
      (cases.modifyHead fun c => { c with assigned := l.var :: c.assigned }) := by
  cases h with
  | start => exact .start
  | @case split splits own below c outer houter hmark hliteral hassigned hbefore hearlier =>
      have hadded : l.var :: c.assigned = (l :: own).map Literal.var := by
        rw [hassigned, List.map_cons]
      show Nested (split :: splits) ((l :: own) ++ below)
        ({ c with assigned := l.var :: c.assigned } :: outer)
      exact .case houter hmark hliteral hadded hbefore hearlier

end

/-- A playback has the values of a trail, and its open cases are the splits. -/
structure Tallies (splits : List Split) (t : Trail) (r : Playback) : Prop where
  values (v : Nat) : r.values v = t.value? v
  cases : Nested splits t.literals r.cases

/-- The playback of its log mirrors a search. -/
structure Mirrors (k : Config) (r : Playback) : Prop
    extends Tallies k.splits k.state.trail r where
  /-- A node that goes on has closed no case. -/
  closed : k.failed = false → r.closed = []
  /-- A node that has failed did so by the last event. -/
  last : k.failed = true → ∃ event, r.last = some event ∧ event.Fails

namespace Tallies

section
variable {splits : List Split} {t : Trail} {r : Playback} {l : Literal}

theorem truth?_eq (h : Tallies splits t r) (l : Literal) : r.truth? l = t.truth? l := by
  rw [Playback.truth?, Trail.truth?, h.values]

theorem truth?_eq_false (h : Tallies splits t r) (ht : t.InStep) (hl : l.negate ∈ t.literals) :
    r.truth? l = some false := by
  rw [h.truth?_eq, ht.truth?_eq_false]
  exact hl

theorem assign (h : Tallies splits t r) (hlt : l.var < t.values.size) :
    Tallies splits (t.assign l) (r.assign l) := by
  refine ⟨fun v => ?_, h.cases.assign l⟩
  rw [Trail.value?_assign hlt, ← h.values]
  rfl

/-- A case is opened on the trail that its split marks. -/
theorem openCase (split : Split) (h : Tallies splits t r) (ht : t.InStep)
    (hmark : split.mark = t.length) (hearlier : split.Earlier r.closed) :
    Tallies (split :: splits) t (r.openCase split.chosen) := by
  have hbefore : ∀ v b, r.values v = some b ↔ ⟨v, b⟩ ∈ t.literals := by
    intro v b
    rw [← ht.1, ← h.values]
  have hcases : Nested (split :: splits) ([] ++ t.literals) (r.openCase split.chosen).cases :=
    .case h.cases hmark rfl rfl hbefore hearlier
  exact ⟨h.values, hcases⟩

theorem decide (split : Split) (h : Tallies splits t r) (ht : t.InStep)
    (hmark : split.mark = t.length) (hearlier : split.Earlier r.closed)
    (hlt : split.chosen.var < t.values.size) :
    Tallies (split :: splits) (t.assign split.chosen)
      ((r.openCase split.chosen).assign split.chosen) :=
  (h.openCase split ht hmark hearlier).assign hlt

/-- Taking the innermost case back restores the values from before it, and closes it beside the
cases closed at its level before. -/
theorem back {split : Split} (clauses : List Clause) (h : Tallies (split :: splits) t r)
    (ht : t.InStep) :
    r.Admits clauses (.backtrack splits.length) ∧
      Tallies splits (t.undo split.mark) (r.next (.backtrack splits.length)) ∧
      ∃ earlier, (r.next (.backtrack splits.length)).closed = ⟨split.chosen, r.last⟩ :: earlier ∧
        split.Earlier earlier := by
  obtain ⟨values, cases, closed, last⟩ := r
  obtain ⟨hvalues, hcases⟩ := h
  dsimp only at hvalues hcases
  generalize hliterals : t.literals = ls at hcases
  cases hcases with
  | @case _ _ own below c outer houter hmark hliteral hassigned hbefore hearlier =>
      rw [hmark]
      have hinStep : (t.undo below.length).InStep := ht.undo hliterals
      have hbelow : (t.undo below.length).literals = below := Trail.literals_undo hliterals
      have hrestored (v : Nat) :
          (if v ∈ c.assigned then none else values v) = (t.undo below.length).value? v := by
        rw [hassigned, Trail.value?_undo hliterals, hvalues]
      refine ⟨⟨c, outer, rfl, houter.length_eq.symm, ?_⟩, ⟨hrestored, hbelow.symm ▸ houter⟩, ?_⟩
      · funext v
        show (if v ∈ c.assigned then none else values v) = c.before v
        rw [hrestored]
        refine Option.ext fun b => ?_
        rw [hinStep.1, hbefore, hbelow]
      · rw [← hliteral]
        exact ⟨c.earlier, rfl, hearlier⟩

end

end Tallies

section
variable {splits : List Split} {s : State} {r : Playback} {event : Event}

theorem Tallies.next {t : Trail} (h : Tallies splits t (r.apply event)) :
    Tallies splits t (r.next event) := ⟨h.values, h.cases⟩

theorem Mirrors.goes (h : Tallies splits s.trail (r.apply event))
    (hclosed : (r.apply event).closed = []) : Mirrors ⟨splits, s, false⟩ (r.next event) where
  toTallies := h.next
  closed _ := hclosed
  last hfailed := absurd hfailed Bool.false_ne_true

theorem Mirrors.fails (h : Tallies splits s.trail (r.apply event)) (hfails : event.Fails) :
    Mirrors ⟨splits, s, true⟩ (r.next event) where
  toTallies := h.next
  closed hgoes := absurd hgoes.symm Bool.false_ne_true
  last _ := ⟨event, rfl, hfails⟩

end

/-! ## Moves -/

section
variable {options : Options} {clauses : List Clause} {k k' : Config} {r : Playback}

/-- What a move writes is admitted, and the playback mirrors the search again. -/
theorem Move.mirrors (hlogged : options.logged = true) (h : Move options clauses.zipIdx k k')
    (hvalid : k.Valid clauses.zipIdx) (hplays : PlaysBack clauses k.state.events r)
    (hr : Mirrors k r) : ∃ r', PlaysBack clauses k'.state.events r' ∧ Mirrors k' r' := by
  have hstep := hvalid.fits.inStep
  cases h with
  | @force splits s c l hc hunit =>
      obtain ⟨c, position⟩ := c
      obtain ⟨hl, hfree, _, hfalse⟩ := Trail.status_eq_unit hstep hunit
      have hadmits : r.Admits clauses (.propagation l position) :=
        ⟨by rw [hr.values, hfree], c, List.mk_mem_zipIdx_iff_getElem?.mp hc, hl,
          fun m hm hne => hr.truth?_eq_false hstep (hfalse m hm hne)⟩
      refine ⟨r.next (.propagation l position), ?_, .goes ?_ (hr.closed rfl)⟩
      · rw [State.events_force hlogged]
        exact hplays.next hadmits
      · rw [State.trail_force]
        exact hr.toTallies.assign (hvalid.fits.bound _ hc l hl)
  | @fail splits s c hc hfalsified =>
      obtain ⟨c, position⟩ := c
      obtain ⟨_, hfalse⟩ := Trail.status_eq_falsified hstep hfalsified
      have hadmits : r.Admits clauses (.conflict position) :=
        ⟨c, List.mk_mem_zipIdx_iff_getElem?.mp hc,
          fun m hm => hr.truth?_eq_false hstep (hfalse m hm)⟩
      refine ⟨r.next (.conflict position), ?_, .fails ?_ (.conflict position)⟩
      · rw [State.events_fail hlogged]
        exact hplays.next hadmits
      · rw [State.trail_fail]
        exact hr.toTallies
  | @pure splits s l hfree hlt hneg =>
      have hadmits : r.Admits clauses (.pureLiteral l splits.length) := by
        refine ⟨hr.cases.length_eq.symm, by rw [hr.values, hfree], fun c hc hmem => ?_⟩
        obtain ⟨position, hat⟩ := List.getElem?_of_mem hc
        obtain ⟨m, hm, htrue⟩ := (Trail.satisfies_iff hstep).mp
          (hneg (c, position) (List.mk_mem_zipIdx_iff_getElem?.mpr hat) hmem)
        exact ⟨m, hm, by rw [hr.truth?_eq, hstep.truth?_eq_true]; exact htrue⟩
      refine ⟨r.next (.pureLiteral l splits.length), ?_, .goes ?_ (hr.closed rfl)⟩
      · rw [State.events_assignPure hlogged]
        exact hplays.next hadmits
      · rw [State.trail_assignPure]
        exact hr.toTallies.assign hlt
  | @decide splits s l hfree hlt =>
      have hadmits : r.Admits clauses (.decision l (splits.length + 1)) :=
        ⟨by rw [hr.cases.length_eq], by rw [hr.values, hfree]⟩
      refine ⟨r.next (.decision l (splits.length + 1)), ?_, .goes ?_ rfl⟩
      · rw [State.events_decide hlogged]
        exact hplays.next hadmits
      · rw [State.trail_decide]
        exact hr.toTallies.decide ⟨l, s.trail.length, false⟩ hstep rfl (hr.closed rfl) hlt
  | @retry split outer s hfirst =>
      obtain ⟨hfits, _, hmark, hfree, hlt, _⟩ := hvalid.unwind
      obtain ⟨hback, htallies, earlier, hclosed, hearlier⟩ :=
        hr.toTallies.back clauses hstep
      have hnegated : ¬split.negated = true := Bool.eq_false_iff.mp hfirst
      have hadmits : (r.next (.backtrack outer.length)).Admits clauses
          (.decision split.literal.negate (outer.length + 1)) :=
        ⟨by rw [htallies.cases.length_eq], by rw [htallies.values]; exact hfree⟩
      -- The first case is the only one closed at the level of the second.
      have hsecond : ({ split with negated := true } : Split).Earlier
          (r.next (.backtrack outer.length)).closed := by
        rw [Split.Earlier, if_neg hnegated] at hearlier
        rw [hclosed, hearlier, Split.Earlier, if_pos rfl]
        exact ⟨_, rfl, if_neg hnegated, hr.last rfl⟩
      refine ⟨(r.next (.backtrack outer.length)).next
        (.decision split.literal.negate (outer.length + 1)), ?_, .goes ?_ rfl⟩
      · rw [State.events_decide hlogged, State.events_back hlogged]
        exact (hplays.next hback).next hadmits
      · rw [State.trail_decide, State.trail_back]
        exact htallies.decide { split with negated := true } hfits.inStep hmark hsecond hlt
  | @exhaust split outer s hsecond =>
      obtain ⟨hback, htallies, earlier, hclosed, hearlier⟩ :=
        hr.toTallies.back clauses hstep
      rw [Split.Earlier, if_pos hsecond] at hearlier
      obtain ⟨first, rfl, hliteral, hfailed⟩ := hearlier
      have hchosen : split.chosen = first.literal.negate := by
        rw [Split.chosen, if_pos hsecond, hliteral]
      have hadmits : (r.next (.backtrack outer.length)).Admits clauses
          (.exhausted split.literal.var outer.length) :=
        ⟨htallies.cases.length_eq.symm, first, _, hclosed, by rw [hliteral], hchosen, hfailed,
          hr.last rfl⟩
      refine ⟨(r.next (.backtrack outer.length)).next
        (.exhausted split.literal.var outer.length), ?_, .fails ?_ (.exhausted _ _)⟩
      · rw [State.events_log hlogged, State.events_back hlogged]
        exact (hplays.next hback).next hadmits
      · rw [State.trail_log, State.trail_back]
        exact htallies

theorem Moves.mirrors (hlogged : options.logged = true) (h : Moves options clauses.zipIdx k k')
    (hvalid : k.Valid clauses.zipIdx) (hplays : PlaysBack clauses k.state.events r)
    (hr : Mirrors k r) : ∃ r', PlaysBack clauses k'.state.events r' ∧ Mirrors k' r' := by
  induction h with
  | refl => exact ⟨r, hplays, hr⟩
  | tail hmoves hmove ih =>
      obtain ⟨r', hplays', hr'⟩ := ih
      exact hmove.mirrors hlogged (Moves.valid hmoves hvalid) hplays' hr'

end

/-! ## Whole logs -/

theorem mirrors_start (size : Nat) (clauses : List Clause) :
    Mirrors (.start size clauses) .start where
  values v := (Trail.value?_start _ v).symm
  cases := .start
  closed _ := rfl
  last hfailed := absurd hfailed Bool.false_ne_true

/-- The log of a search is faithful: played back from the empty assignment, every event is admitted
where it comes.  The model of a satisfiable list is what the values are at the end, false where there
is none, and no case is open at the end of a refutation. -/
theorem faithful_trace (options : Options) (size : Nat) (clauses : List Clause) (budget : Budget) :
    let result := solve { options with logged := true } size clauses budget
    let final := Playback.start.after result.trace
    Playback.start.Follows clauses result.trace ∧
      match result.outcome with
      | .satisfiable model =>
          model.length = max size (variableBound clauses) ∧
            ∀ v, Assignment.ofValues model v = (final.values v).getD false
      | .unsatisfiable _ => final.cases = []
      | .unknown _ => True := by
  obtain ⟨k, hmoves, _, hends, htrace, _⟩ :=
    solve_ends { options with logged := true } size clauses budget
  obtain ⟨r, ⟨hfollows, hafter⟩, hr⟩ :=
    hmoves.mirrors rfl (valid_start size clauses) plays_nil (mirrors_start size clauses)
  intro result final
  have hfinal : final = r := by
    show Playback.start.after (solve _ size clauses budget).trace = r
    rw [htrace, hafter]
  rw [hfinal]
  refine ⟨htrace ▸ hfollows, ?_⟩
  change Ends clauses.zipIdx k result.outcome at hends
  generalize result.outcome = outcome at hends
  cases hends with
  | satisfied _ hall =>
      refine ⟨?_, fun v => ?_⟩
      · rw [Trail.length_model, hmoves.size_eq]
        exact Array.size_replicate
      · rw [Trail.ofValues_model, hr.values]
  | refuted _ hsplits =>
      refine List.eq_nil_of_length_eq_zero ?_
      rw [hr.cases.length_eq, hsplits]
      rfl
  | stopped _ => trivial

end Elenchus.Search
