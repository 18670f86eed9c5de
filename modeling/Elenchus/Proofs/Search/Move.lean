import Elenchus.Proofs.Search.Branching
import Mathlib.Logic.Relation

/-!
# The moves of a search

`Move` says once what a search can do between two writings of its trail, with all that it has
checked before it does so:

    force     a clause is unit                 its literal is made true
    fail      a clause is falsified            the node has failed
    pure      a literal is open and its        the literal is made true
              negation occurs in satisfied
              clauses only
    decide    a literal is open                its first case is opened
    retry     the node has failed and the      the trail is cut back and the second
              last split is in its first case  case is opened
    exhaust   the node has failed and the      the trail is cut back and the split
              last split is in its second case given up; the node around it has failed

The functions that scan, propagate, choose and reopen only make moves (`Moves` is any number of
them), so whatever a move preserves holds all through a search.  The rest is what the moves do not
show: what is known when a function stops.
-/

namespace Elenchus.Search

/-! ## What one writing does -/

section
variable (options : Options) (s : State) (event : Event) (l : Literal) (position level : Nat)

namespace State

@[simp] theorem trail_log : (s.log options event).trail = s.trail := by
  unfold log
  split <;> rfl

@[simp] theorem involved_log : (s.log options event).involved = s.involved := by
  unfold log
  split <;> rfl

@[simp] theorem trail_involve : (s.involve position).trail = s.trail := by
  unfold involve
  split <;> rfl

theorem mem_involved_involve {p : Nat} :
    p ∈ (s.involve position).involved ↔ p = position ∨ p ∈ s.involved := by
  unfold involve
  split
  · rename_i hmem
    exact ⟨Or.inr, fun h => h.elim (fun h => h ▸ hmem) id⟩
  · exact List.mem_cons

@[simp] theorem trail_force : (s.force options l position).trail = s.trail.assign l := by
  simp [force]

theorem mem_involved_force {p : Nat} :
    p ∈ (s.force options l position).involved ↔ p = position ∨ p ∈ s.involved := by
  rw [force, involved_log, mem_involved_involve]

@[simp] theorem trail_fail : (s.fail options position).trail = s.trail := by
  simp [fail]

theorem mem_involved_fail {p : Nat} :
    p ∈ (s.fail options position).involved ↔ p = position ∨ p ∈ s.involved := by
  rw [fail, involved_log, mem_involved_involve]

@[simp] theorem trail_assignPure : (s.assignPure options level l).trail = s.trail.assign l := by
  simp [assignPure]

@[simp] theorem involved_assignPure : (s.assignPure options level l).involved = s.involved := by
  simp [assignPure]

@[simp] theorem trail_decide : (s.decide options l level).trail = s.trail.assign l := by
  simp [decide]

@[simp] theorem involved_decide : (s.decide options l level).involved = s.involved := by
  simp [decide]

/-- The trail is cut back to where a split began. -/
def back (split : Split) (level : Nat) : State :=
  { s with trail := s.trail.undo split.mark }.log options (.backtrack level)

@[simp] theorem trail_back (split : Split) :
    (s.back options split level).trail = s.trail.undo split.mark := by
  simp [back]

@[simp] theorem involved_back (split : Split) :
    (s.back options split level).involved = s.involved := by
  simp [back]

end State

end

/-! ## Moves -/

/-- Where a search stands. -/
structure Config where
  /-- The open splits, the innermost first. -/
  splits : List Split
  state : State
  /-- Whether the node has failed. -/
  failed : Bool

/-- One move of a search. -/
inductive Move (options : Options) (clauses : List (Clause × Nat)) : Config → Config → Prop
  | force {splits : List Split} {s : State} {c : Clause × Nat} {l : Literal} :
      c ∈ clauses → s.trail.status c.1 = .unit l →
      Move options clauses ⟨splits, s, false⟩ ⟨splits, s.force options l c.2, false⟩
  | fail {splits : List Split} {s : State} {c : Clause × Nat} :
      c ∈ clauses → s.trail.status c.1 = .falsified →
      Move options clauses ⟨splits, s, false⟩ ⟨splits, s.fail options c.2, true⟩
  | pure {splits : List Split} {s : State} {l : Literal} :
      s.trail.value? l.var = none → l.var < s.trail.values.size →
      (∀ c ∈ clauses, l.negate ∈ c.1.literals → s.trail.satisfies c.1 = true) →
      Move options clauses ⟨splits, s, false⟩
        ⟨splits, s.assignPure options splits.length l, false⟩
  | decide {splits : List Split} {s : State} {l : Literal} :
      s.trail.value? l.var = none → l.var < s.trail.values.size →
      Move options clauses ⟨splits, s, false⟩
        ⟨⟨l, s.trail.length, false⟩ :: splits, s.decide options l (splits.length + 1), false⟩
  | retry {split : Split} {outer : List Split} {s : State} :
      split.negated = false →
      Move options clauses ⟨split :: outer, s, true⟩
        ⟨{ split with negated := true } :: outer,
          (s.back options split outer.length).decide options split.literal.negate
            (outer.length + 1), false⟩
  | exhaust {split : Split} {outer : List Split} {s : State} :
      split.negated = true →
      Move options clauses ⟨split :: outer, s, true⟩
        ⟨outer, (s.back options split outer.length).log options
          (.exhausted split.literal.var outer.length), true⟩

/-- Any number of moves. -/
abbrev Moves (options : Options) (clauses : List (Clause × Nat)) : Config → Config → Prop :=
  Relation.ReflTransGen (Move options clauses)

section
variable {options : Options} {clauses : List (Clause × Nat)} {splits : List Split} {s : State}

theorem Move.size_eq {k k' : Config} (h : Move options clauses k k') :
    k'.state.trail.values.size = k.state.trail.values.size := by
  cases h <;> simp

theorem Moves.size_eq {k k' : Config} (h : Moves options clauses k k') :
    k'.state.trail.values.size = k.state.trail.values.size := by
  induction h with
  | refl => rfl
  | tail _ hmove ih => rw [hmove.size_eq, ih]

/-! ## A trail that fits the clauses -/

/-- Table and trail are in step, and the table has room for every variable of the clauses. -/
structure Fits (clauses : List (Clause × Nat)) (t : Trail) : Prop where
  inStep : t.InStep
  bound : ∀ c ∈ clauses, ∀ l ∈ c.1.literals, l.var < t.values.size

/-- Making an open literal true leaves the trail fitting. -/
theorem Fits.assign {t : Trail} {l : Literal} (h : Fits clauses t) (hfree : t.value? l.var = none)
    (hlt : l.var < t.values.size) : Fits clauses (t.assign l) :=
  ⟨h.inStep.assign hfree hlt, fun c hc m hm => by rw [Trail.size_assign]; exact h.bound c hc m hm⟩

/-- Cutting the trail back leaves it fitting. -/
theorem Fits.undo {t : Trail} (h : Fits clauses t) {inner outer : List Literal}
    (hsplit : t.literals = inner ++ outer) : Fits clauses (t.undo outer.length) :=
  ⟨h.inStep.undo hsplit, fun c hc m hm => by rw [Trail.size_undo]; exact h.bound c hc m hm⟩

/-- What is forced by a clause is open and has room. -/
theorem Fits.force {t : Trail} {c : Clause × Nat} {l : Literal} (h : Fits clauses t)
    (hc : c ∈ clauses) (hunit : t.status c.1 = .unit l) : Fits clauses (t.assign l) := by
  obtain ⟨hl, hfree, _⟩ := Trail.status_eq_unit h.inStep hunit
  exact h.assign hfree (h.bound c hc l hl)

/-! ## Propagation -/

/-- Every clause is satisfied or has an open literal: none is falsified. -/
def Live (clauses : List (Clause × Nat)) (t : Trail) : Prop :=
  ∀ c ∈ clauses, t.satisfies c.1 = false → ∃ l, l ∈ t.unassigned c.1

/-- Every clause is satisfied or has several open literals: none is falsified, and none forces
anything. -/
def Quiet (clauses : List (Clause × Nat)) (t : Trail) : Prop :=
  ∀ c ∈ clauses, t.status c.1 = .satisfied ∨ t.status c.1 = .undecided

theorem Quiet.live {t : Trail} (h : Quiet clauses t) : Live clauses t := by
  intro c hc hsat
  refine Trail.exists_unassigned hsat ?_
  rcases h c hc with hstatus | hstatus <;> rw [hstatus] <;> exact Status.noConfusion

/-- A clause forces a literal. -/
inductive Force (options : Options) (clauses : List (Clause × Nat)) (s : State) : State → Prop
  | force {c : Clause × Nat} {l : Literal} : c ∈ clauses → s.trail.status c.1 = .unit l →
      Force options clauses s (s.force options l c.2)

/-- Any number of literals are forced, one after another. -/
abbrev Forces (options : Options) (clauses : List (Clause × Nat)) : State → State → Prop :=
  Relation.ReflTransGen (Force options clauses)

/-- What a scan or a propagation does: it forces literals, and with the answer `false` it has found
a falsified clause in the end. -/
inductive Propagates (options : Options) (clauses : List (Clause × Nat)) (s : State) :
    State → Bool → Prop
  | done {s' : State} : Forces options clauses s s' → Propagates options clauses s s' true
  | failed {s' : State} {c : Clause × Nat} : Forces options clauses s s' → c ∈ clauses →
      s'.trail.status c.1 = .falsified →
      Propagates options clauses s (s'.fail options c.2) false

theorem Propagates.head {s s' after : State} {ok : Bool} (h : Forces options clauses s s')
    (h' : Propagates options clauses s' after ok) : Propagates options clauses s after ok := by
  cases h' with
  | done h' => exact .done (h.trans h')
  | failed h' hc hfalsified => exact .failed (h.trans h') hc hfalsified

theorem Forces.moves {s s' : State} (h : Forces options clauses s s') :
    Moves options clauses ⟨splits, s, false⟩ ⟨splits, s', false⟩ := by
  induction h with
  | refl => exact .refl
  | tail _ hforce ih =>
      cases hforce with
      | force hc hunit => exact ih.tail (.force hc hunit)

theorem Propagates.moves {s s' : State} {ok : Bool} (h : Propagates options clauses s s' ok) :
    Moves options clauses ⟨splits, s, false⟩ ⟨splits, s', !ok⟩ := by
  cases h with
  | done h => exact h.moves
  | failed h hc hfalsified => exact (Forces.moves h).tail (.fail hc hfalsified)

theorem propagates_scan {ok : Bool} {rest : List (Clause × Nat)} {s s' : State}
    (hrest : ∀ c ∈ rest, c ∈ clauses) (h : scan options rest s = (s', ok)) :
    Propagates options clauses s s' ok := by
  induction rest generalizing s with
  | nil =>
      cases h
      exact .done .refl
  | cons c rest ih =>
      have hc := hrest c List.mem_cons_self
      have hrest' := fun c hc => hrest c (List.mem_cons_of_mem _ hc)
      unfold scan at h
      split at h
      · exact ih hrest' h
      · exact ih hrest' h
      · rename_i l hunit
        exact .head (.single (.force hc hunit)) (ih hrest' h)
      · rename_i hfalsified
        cases h
        exact .failed .refl hc hfalsified

/-- A scan that fails nothing leaves the state as it is, all clauses being quiet, or leaves less
open variables. -/
theorem scan_settles {rest : List (Clause × Nat)} {s s' : State} (hs : Fits clauses s.trail)
    (hrest : ∀ c ∈ rest, c ∈ clauses) (h : scan options rest s = (s', true)) :
    Fits clauses s'.trail ∧
      (s' = s ∧ Quiet rest s.trail ∨ s'.trail.unvalued < s.trail.unvalued) := by
  induction rest generalizing s with
  | nil =>
      cases h
      exact ⟨hs, Or.inl ⟨rfl, List.forall_mem_nil _⟩⟩
  | cons c rest ih =>
      have hc := hrest c List.mem_cons_self
      have hrest' := fun c hc => hrest c (List.mem_cons_of_mem _ hc)
      have hskip (hstatus : s.trail.status c.1 = .satisfied ∨ s.trail.status c.1 = .undecided)
          (h : scan options rest s = (s', true)) : Fits clauses s'.trail ∧
            (s' = s ∧ Quiet (c :: rest) s.trail ∨ s'.trail.unvalued < s.trail.unvalued) := by
        obtain ⟨hfits, hsame | hless⟩ := ih hs hrest' h
        · exact ⟨hfits, Or.inl ⟨hsame.1, List.forall_mem_cons.mpr ⟨hstatus, hsame.2⟩⟩⟩
        · exact ⟨hfits, Or.inr hless⟩
      unfold scan at h
      split at h
      · rename_i hstatus
        exact hskip (Or.inl hstatus) h
      · rename_i hstatus
        exact hskip (Or.inr hstatus) h
      · rename_i l hunit
        obtain ⟨hl, hfree, _⟩ := Trail.status_eq_unit hs.inStep hunit
        have hforced : (s.force options l c.2).trail.unvalued < s.trail.unvalued := by
          rw [State.trail_force]
          exact Trail.unvalued_assign hfree (hs.bound c hc l hl)
        have hfits : Fits clauses (s.force options l c.2).trail := by
          rw [State.trail_force]
          exact hs.force hc hunit
        obtain ⟨hfits', hsame | hless⟩ := ih hfits hrest' h
        · exact ⟨hfits', Or.inr (by rw [hsame.1]; exact hforced)⟩
        · exact ⟨hfits', Or.inr (Nat.lt_trans hless hforced)⟩
      · cases h

theorem propagates_propagate {ok : Bool} {s s' : State}
    (h : propagate options clauses s = (s', ok)) : Propagates options clauses s s' ok := by
  induction s using propagate.induct options clauses with
  | case1 s after hscan =>
      rw [propagate, hscan] at h
      cases h
      exact propagates_scan (fun _ hc => hc) hscan
  | case2 s after hscan hless ih =>
      rw [propagate, hscan] at h
      simp only [if_pos hless] at h
      cases propagates_scan (fun _ hc => hc) hscan with
      | done hforces => exact .head hforces (ih h)
  | case3 s after hscan hless =>
      rw [propagate, hscan] at h
      simp only [if_neg hless] at h
      cases h
      exact propagates_scan (fun _ hc => hc) hscan

theorem moves_propagate {ok : Bool} {s s' : State} (h : propagate options clauses s = (s', ok)) :
    Moves options clauses ⟨splits, s, false⟩ ⟨splits, s', !ok⟩ :=
  (propagates_propagate h).moves

/-- When propagation stops without a falsified clause, all clauses are quiet. -/
theorem quiet_propagate {s s' : State} (hs : Fits clauses s.trail)
    (h : propagate options clauses s = (s', true)) :
    Fits clauses s'.trail ∧ Quiet clauses s'.trail := by
  induction s using propagate.induct options clauses with
  | case1 s after hscan =>
      rw [propagate, hscan] at h
      cases h
  | case2 s after hscan hless ih =>
      rw [propagate, hscan] at h
      simp only [if_pos hless] at h
      exact ih (scan_settles hs (fun _ hc => hc) hscan).1 h
  | case3 s after hscan hless =>
      rw [propagate, hscan] at h
      simp only [if_neg hless] at h
      cases h
      obtain ⟨hfits, ⟨rfl, hquiet⟩ | hless'⟩ := scan_settles hs (fun _ hc => hc) hscan
      · exact ⟨hfits, hquiet⟩
      · exact absurd hless' hless

theorem live_propagate {s s' : State} (hs : Fits clauses s.trail)
    (h : propagate options clauses s = (s', true)) :
    Fits clauses s'.trail ∧ Live clauses s'.trail :=
  ⟨(quiet_propagate hs h).1, (quiet_propagate hs h).2.live⟩

/-! ## Pure literals -/

/-- A literal that may be made true without a reason: it is open, and its negation occurs in
satisfied clauses only. -/
structure Idle (clauses : List (Clause × Nat)) (t : Trail) (l : Literal) : Prop where
  isOpen : t.value? l.var = none
  bound : l.var < t.values.size
  negate : ∀ c ∈ clauses, l.negate ∈ c.1.literals → t.satisfies c.1 = true

/-- An idle literal stays idle when a literal of another variable is made true. -/
theorem Idle.assign {t : Trail} {l m : Literal} (hl : Idle clauses t l) (hm : Idle clauses t m)
    (ht : Fits clauses t) (hne : l.var ≠ m.var) : Idle clauses (t.assign m) l := by
  refine ⟨?_, by rw [Trail.size_assign]; exact hl.bound, ?_⟩
  · rw [Trail.value?_assign hm.bound, if_neg hne]
    exact hl.isOpen
  · intro c hc hneg
    exact Trail.satisfies_mono ht.inStep (ht.assign hm.isOpen hm.bound).inStep
      (fun _ => List.mem_cons_of_mem _) (hl.negate c hc hneg)

/-- Clauses stay live when an idle literal is made true: one that has the literal is satisfied then,
one that has its negation was satisfied before. -/
theorem Live.assign {t : Trail} {l : Literal} (h : Live clauses t) (ht : Fits clauses t)
    (hl : Idle clauses t l) : Live clauses (t.assign l) := by
  have ht' := ht.assign hl.isOpen hl.bound
  intro c hc hsat
  have hsat' : t.satisfies c.1 = false := by
    refine Bool.eq_false_iff.mpr ?_
    intro hbefore
    rw [Trail.satisfies_mono ht.inStep ht'.inStep (fun _ => List.mem_cons_of_mem _) hbefore] at hsat
    cases hsat
  obtain ⟨m, hm⟩ := h c hc hsat'
  obtain ⟨hmem, hopen⟩ := Trail.mem_unassigned.mp hm
  refine ⟨m, Trail.mem_unassigned.mpr ⟨hmem, ?_⟩⟩
  rw [Trail.value?_assign hl.bound]
  by_cases hvar : m.var = l.var
  · rcases Literal.eq_or_eq_negate hvar with rfl | rfl
    · rw [(Trail.satisfies_iff ht'.inStep).mpr ⟨m, hmem, List.mem_cons_self⟩] at hsat
      cases hsat
    · rw [hl.negate c hc hmem] at hsat'
      cases hsat'
  · rw [if_neg hvar]
    exact hopen

/-- Idle literals of different variables are made true one after the other. -/
theorem moves_foldl_assignPure {ls : List Literal} {s : State} (hs : Fits clauses s.trail)
    (hlive : Live clauses s.trail) (hidle : ∀ l ∈ ls, Idle clauses s.trail l)
    (hnodup : (ls.map Literal.var).Nodup) :
    Moves options clauses ⟨splits, s, false⟩
        ⟨splits, ls.foldl (State.assignPure options splits.length) s, false⟩ ∧
      Fits clauses (ls.foldl (State.assignPure options splits.length) s).trail ∧
      Live clauses (ls.foldl (State.assignPure options splits.length) s).trail := by
  induction ls generalizing s with
  | nil => exact ⟨.refl, hs, hlive⟩
  | cons l ls ih =>
      have hl := hidle l List.mem_cons_self
      obtain ⟨hnot, hnodup⟩ := List.nodup_cons.mp hnodup
      have htrail := State.trail_assignPure options s l splits.length
      obtain ⟨hmoves, hfits, hlive⟩ := ih (s := s.assignPure options splits.length l)
        (by rw [htrail]; exact hs.assign hl.isOpen hl.bound)
        (by rw [htrail]; exact hlive.assign hs hl)
        (fun m hm => by
          rw [htrail]
          exact (hidle m (List.mem_cons_of_mem _ hm)).assign hl hs fun hvar =>
            hnot (List.mem_map.mpr ⟨m, hm, hvar⟩))
        hnodup
      exact ⟨.head (.pure hl.isOpen hl.bound hl.negate) hmoves, hfits, hlive⟩

/-- The literals that occur with one sign only are idle. -/
theorem idle_of_pure {t : Trail} {l : Literal}
    (h : l ∈ pureLiterals (occurrences t.values.size (openLiterals clauses t))) :
    Idle clauses t l := by
  obtain ⟨hlt, hmem, hnot⟩ := pure_of_mem h
  obtain ⟨_, _, _, _, hopen⟩ := mem_openLiterals.mp hmem
  refine ⟨hopen, hlt, ?_⟩
  intro c hc hneg
  cases hsat : t.satisfies c.1 with
  | true => rfl
  | false => exact absurd (mem_openLiterals.mpr ⟨c, hc, hsat, hneg, hopen⟩) hnot

/-- The pure literals of a state with live clauses are made true, and the clauses stay live. -/
theorem moves_assignPure {s : State} (hs : Fits clauses s.trail) (hlive : Live clauses s.trail) :
    Moves options clauses ⟨splits, s, false⟩
        ⟨splits, assignPure options clauses splits.length s, false⟩ ∧
      Fits clauses (assignPure options clauses splits.length s).trail ∧
      Live clauses (assignPure options clauses splits.length s).trail :=
  moves_foldl_assignPure hs hlive (fun _ => idle_of_pure) (nodup_pureLiterals _)

/-! ## Nodes -/

/-- A node leads on from a configuration by moves: to satisfied clauses, to a failure with no split
left, or to the next node. -/
inductive Reaches (options : Options) (clauses : List (Clause × Nat)) (k : Config) : Node → Prop
  | satisfied {splits : List Split} {s : State} :
      Moves options clauses k ⟨splits, s, false⟩ →
      (∀ c ∈ clauses, s.trail.satisfies c.1 = true) → Reaches options clauses k (.satisfied s)
  | refuted {s : State} :
      Moves options clauses k ⟨[], s, true⟩ → Reaches options clauses k (.refuted s)
  | next {splits : List Split} {s : State} :
      Moves options clauses k ⟨splits, s, false⟩ → Reaches options clauses k (.next splits s)

theorem Reaches.trans {k k' : Config} {node : Node} (hmoves : Moves options clauses k k')
    (h : Reaches options clauses k' node) : Reaches options clauses k node := by
  cases h with
  | satisfied h hall => exact .satisfied (hmoves.trans h) hall
  | refuted h => exact .refuted (hmoves.trans h)
  | next h => exact .next (hmoves.trans h)

theorem reaches_reopen (splits : List Split) (s : State) :
    Reaches options clauses ⟨splits, s, true⟩ (reopen options splits s) := by
  induction splits generalizing s with
  | nil => exact .refuted .refl
  | cons split outer ih =>
      unfold reopen
      split
      · rename_i hsecond
        exact .trans (.single (.exhaust hsecond)) (ih _)
      · rename_i hfirst
        exact .next (.single (.retry (Bool.eq_false_iff.mpr hfirst)))

/-- With no literal to branch on, live clauses are satisfied. -/
theorem Live.satisfies {t : Trail} (h : Live clauses t) (ht : Fits clauses t)
    (hnone : branch? (occurrences t.values.size (openLiterals clauses t)) = none) :
    ∀ c ∈ clauses, t.satisfies c.1 = true := by
  have hempty : openLiterals clauses t = [] := branch?_eq_none hnone fun l hl => by
    obtain ⟨c, hc, _, hmem, _⟩ := mem_openLiterals.mp hl
    exact ht.bound c hc l hmem
  intro c hc
  cases hsat : t.satisfies c.1 with
  | true => rfl
  | false =>
      obtain ⟨l, hl⟩ := h c hc hsat
      obtain ⟨hmem, hopen⟩ := Trail.mem_unassigned.mp hl
      have hcounted : l ∈ openLiterals clauses t :=
        mem_openLiterals.mpr ⟨c, hc, hsat, hmem, hopen⟩
      rw [hempty] at hcounted
      exact absurd hcounted List.not_mem_nil

/-- The end of a node: all clauses are satisfied, or a case is opened on an open literal. -/
theorem reaches_branch {s : State} (hs : Fits clauses s.trail) (hlive : Live clauses s.trail) :
    Reaches options clauses ⟨splits, s, false⟩
      (match branch? (occurrences s.trail.values.size (openLiterals clauses s.trail)) with
      | none => .satisfied s
      | some l =>
        .next (⟨l, s.trail.length, false⟩ :: splits) (s.decide options l (splits.length + 1))) := by
  split
  · rename_i hnone
    exact .satisfied .refl (hlive.satisfies hs hnone)
  · rename_i l hsome
    obtain ⟨hlt, m, hm, hvar⟩ := branch?_eq_some hsome
    obtain ⟨_, _, _, _, hopen⟩ := mem_openLiterals.mp hm
    exact .next (.single (.decide (hvar ▸ hopen) hlt))

variable (options splits) in
theorem reaches_step (hs : Fits clauses s.trail) :
    Reaches options clauses ⟨splits, s, false⟩ (step options clauses splits s) := by
  unfold step
  split
  · rename_i s' hpropagate
    exact .trans (moves_propagate hpropagate) (reaches_reopen splits s')
  · rename_i s' hpropagate
    obtain ⟨hfits, hlive⟩ := live_propagate hs hpropagate
    refine .trans (moves_propagate hpropagate) ?_
    by_cases hpure : options.pureLiterals = true
    · simp only [if_pos hpure]
      obtain ⟨hmoves, hfits', hlive'⟩ := moves_assignPure hfits hlive
      exact .trans hmoves (reaches_branch hfits' hlive')
    · simp only [if_neg hpure]
      exact reaches_branch hfits hlive

end

end Elenchus.Search
