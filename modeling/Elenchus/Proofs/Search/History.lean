import Elenchus.Proofs.Search.Decision
import Mathlib.Data.List.Defs

/-!
# The trail at every point of a search

`history` lists all points of a search, one after each thing that it writes down: a literal made
true by a scan, by the pure literals or by a case; a split opened, turned to its second case or
given up; the trail cut back.  The functions that list the points ask the search where it goes, and
they keep one thing that it does not: the trail that each open split was opened on.

`Writes` is what may lie between two points.  A literal is made true only while its variable is
open, so nothing is ever overwritten (`leads_run`).

The invariant is that the trail is in step and begins, for each open split, with the trail that the
split was opened on (`Point.Valid`).  One writing keeps it.  A trail in step is determined by its
literals (`Trail.InStep.eq_of_literals`), so to cut back to a mark restores the table too, across
any number of splits.
-/

namespace Elenchus.Search

/-! ## Points -/

/-- An open split. -/
structure Opening where
  split : Split
  /-- The trail that it was opened on. -/
  before : Trail
deriving DecidableEq, Repr

/-- The split in its second case. -/
def Opening.second (o : Opening) : Opening := { o with split := { o.split with negated := true } }

/-- What a search has written down at some point. -/
structure Point where
  /-- The open splits, the innermost first. -/
  openings : List Opening
  trail : Trail
deriving DecidableEq, Repr

/-- The trail after each literal that a scan makes true. -/
def scanTrails : List (Clause × Nat) → Trail → List Trail
  | [], _ => []
  | (c, _) :: rest, t =>
    match t.status c with
    | .satisfied | .undecided => scanTrails rest t
    | .unit l => t.assign l :: scanTrails rest (t.assign l)
    | .falsified => []

/-- The trail after each literal of a list. -/
def assignTrails : List Literal → Trail → List Trail
  | [], _ => []
  | l :: ls, t => t.assign l :: assignTrails ls (t.assign l)

section
variable (options : Options) (clauses : List (Clause × Nat))

/-- The trail after each literal that a propagation makes true. -/
def propagateTrails (s : State) : List Trail :=
  scanTrails clauses s.trail ++
    match scan options clauses s with
    | (_, false) => []
    | (after, true) =>
      if after.trail.unvalued < s.trail.unvalued then propagateTrails after else []
termination_by s.trail.unvalued

/-- The trail after each pure literal. -/
def pureTrails (t : Trail) : List Trail :=
  if options.pureLiterals then
    assignTrails (pureLiterals (occurrences t.values.size (openLiterals clauses t))) t
  else []

/-- The points at which a split is opened and its first case entered. -/
def branchPoints (openings : List Opening) (t : Trail) : List Point :=
  match branch? (occurrences t.values.size (openLiterals clauses t)) with
  | none => []
  | some l =>
    let openings := ⟨⟨l, t.length, false⟩, t⟩ :: openings
    [⟨openings, t⟩, ⟨openings, t.assign l⟩]

/-- The points at which splits are given up and the next second case is entered. -/
def reopenPoints : List Opening → Trail → List Point
  | [], _ => []
  | o :: outer, t =>
    let t := t.undo o.split.mark
    ⟨o :: outer, t⟩ ::
      if o.split.negated then ⟨outer, t⟩ :: reopenPoints outer t
      else [⟨o.second :: outer, t⟩, ⟨o.second :: outer, t.assign o.split.literal.negate⟩]

/-- The points of one node. -/
def stepPoints (openings : List Opening) (s : State) : List Point :=
  (propagateTrails options clauses s).map (Point.mk openings) ++
    match propagate options clauses s with
    | (s, false) => reopenPoints openings s.trail
    | (s, true) =>
      let after := if options.pureLiterals then assignPure options clauses openings.length s else s
      (pureTrails options clauses s.trail).map (Point.mk openings) ++
        branchPoints clauses openings after.trail

/-- The points of a search from a state on. -/
def runPoints (openings : List Opening) (s : State) (budget : Budget) : List Point :=
  match h : budget.spend with
  | (some _, _) => []
  | (none, after) =>
    have := Budget.remaining_lt_of_spend h
    let points := stepPoints options clauses openings s
    points ++
      match step options clauses (openings.map Opening.split) s with
      | .next _ s' => runPoints (points.getLastD ⟨openings, s.trail⟩).openings s' after
      | _ => []
termination_by budget.remaining

end

/-- All points of a search. -/
def history (options : Options) (size : Nat) (clauses : List Clause) (budget : Budget) :
    List Point :=
  let start := Trail.start (max size (variableBound clauses))
  ⟨[], start⟩ :: runPoints options clauses.zipIdx [] ⟨start, [], []⟩ budget

/-! ## Writings -/

/-- What lies between two points that follow each other. -/
inductive Writes : Point → Point → Prop
  | assign {openings : List Opening} {t : Trail} {l : Literal} :
      t.value? l.var = none → l.var < t.values.size →
      Writes ⟨openings, t⟩ ⟨openings, t.assign l⟩
  | opens {openings : List Opening} {t : Trail} {l : Literal} :
      t.value? l.var = none → l.var < t.values.size →
      Writes ⟨openings, t⟩ ⟨⟨⟨l, t.length, false⟩, t⟩ :: openings, t⟩
  | cut {o : Opening} {outer : List Opening} {t : Trail} :
      Writes ⟨o :: outer, t⟩ ⟨o :: outer, t.undo o.split.mark⟩
  | second {o : Opening} {outer : List Opening} {t : Trail} : o.split.negated = false →
      Writes ⟨o :: outer, t⟩ ⟨o.second :: outer, t⟩
  | closes {o : Opening} {outer : List Opening} {t : Trail} : o.split.negated = true →
      Writes ⟨o :: outer, t⟩ ⟨outer, t⟩

/-- Points that follow each other from one to another. -/
inductive Leads : Point → List Point → Point → Prop
  | refl {p : Point} : Leads p [] p
  | cons {p p' q : Point} {ps : List Point} : Writes p p' → Leads p' ps q → Leads p (p' :: ps) q

namespace Leads

variable {p q r : Point} {ps qs : List Point}

theorem append (h : Leads p ps q) (h' : Leads q qs r) : Leads p (ps ++ qs) r := by
  induction h with
  | refl => exact h'
  | cons hwrites _ ih => exact .cons hwrites (ih h')

theorem getLastD_eq (h : Leads p ps q) : ps.getLastD p = q := by
  induction h with
  | refl => rfl
  | cons _ _ ih => rw [List.getLastD_cons, ih]

theorem isChain (h : Leads p ps q) : (p :: ps).IsChain Writes := by
  induction h with
  | refl => exact .singleton _
  | cons hwrites _ ih => exact .cons_cons hwrites ih

end Leads

/-! ## What is known of a point -/

/-- A trail in step is determined by its literals. -/
theorem Trail.InStep.eq_of_literals {t t' : Trail} (h : t.InStep) (h' : t'.InStep)
    (hliterals : t.literals = t'.literals) (hsize : t.values.size = t'.values.size) : t = t' := by
  have hvalue (v : Nat) : t.value? v = t'.value? v :=
    Option.ext fun b => by
      rw [h.1 v b, h'.1 v b, hliterals]
  have hvalues : t.values = t'.values := by
    refine Array.ext hsize fun v hv hv' => ?_
    have hv := hvalue v
    simpa [Trail.value?, Array.getD_eq_getD_getElem?, *] using hv
  cases t
  cases t'
  exact congr (congrArg Trail.mk hvalues) hliterals

/-- A split stands on a trail: the trail that it was opened on is where the trail began, up to the
mark, and its variable was open there. -/
structure Opening.Under (t : Trail) (o : Opening) : Prop where
  mark : o.split.mark = o.before.length
  inStep : o.before.InStep
  size : o.before.values.size = t.values.size
  suffix : o.before.literals <:+ t.literals
  isOpen : o.before.value? o.split.literal.var = none
  bound : o.split.literal.var < o.before.values.size

namespace Opening.Under

variable {o : Opening} {t : Trail} {l : Literal}

/-- To cut the trail back to the mark of a split restores the trail that it was opened on. -/
theorem undo_eq (h : o.Under t) (ht : t.InStep) : t.undo o.split.mark = o.before := by
  obtain ⟨inner, hsplit⟩ := h.suffix
  rw [h.mark, Trail.length]
  refine (ht.undo hsplit.symm).eq_of_literals h.inStep ?_ ?_
  · exact Trail.literals_undo hsplit.symm
  · rw [Trail.size_undo]
    exact h.size.symm

theorem assign (h : o.Under t) : o.Under (t.assign l) :=
  { h with
    size := by rw [Trail.size_assign]; exact h.size
    suffix := h.suffix.trans (List.suffix_cons ..) }

theorem second (h : o.Under t) : o.second.Under t :=
  ⟨h.mark, h.inStep, h.size, h.suffix, h.isOpen, h.bound⟩

end Opening.Under

/-- What is known of every point of a search. -/
structure Point.Valid (clauses : List (Clause × Nat)) (p : Point) : Prop where
  fits : Fits clauses p.trail
  under : ∀ o ∈ p.openings, o.Under p.trail
  nested : p.openings.Pairwise fun inner outer => outer.before.literals <:+ inner.before.literals

section
variable {clauses : List (Clause × Nat)} {p q : Point} {ps : List Point}

/-- The marks of the open splits do not decrease inwards. -/
theorem Point.Valid.marks (h : p.Valid clauses) :
    p.openings.Pairwise fun inner outer => outer.split.mark ≤ inner.split.mark := by
  refine h.nested.imp_of_mem fun hinner houter hsuffix => ?_
  rw [(h.under _ hinner).mark, (h.under _ houter).mark]
  exact hsuffix.length_le

/-- One writing. -/
theorem Writes.valid (h : Writes p q) (hp : p.Valid clauses) : q.Valid clauses := by
  obtain ⟨hfits, hunder, hnested⟩ := hp
  cases h with
  | assign hfree hlt => exact ⟨hfits.assign hfree hlt, fun o ho => (hunder o ho).assign, hnested⟩
  | opens hfree hlt =>
      refine ⟨hfits, List.forall_mem_cons.mpr ⟨?_, hunder⟩, List.pairwise_cons.mpr ⟨?_, hnested⟩⟩
      · exact ⟨rfl, hfits.inStep, rfl, List.suffix_refl _, hfree, hlt⟩
      · exact fun o ho => (hunder o ho).suffix
  | @cut o outer t =>
      obtain ⟨ho, houter⟩ := List.forall_mem_cons.mp hunder
      obtain ⟨hbelow, hnested'⟩ := List.pairwise_cons.mp hnested
      have hback : t.undo o.split.mark = o.before := ho.undo_eq hfits.inStep
      have hbound : ∀ c ∈ clauses, ∀ l ∈ c.1.literals, l.var < o.before.values.size := by
        rw [ho.size]
        exact hfits.bound
      refine ⟨hback ▸ ⟨ho.inStep, hbound⟩, ?_, hnested⟩
      dsimp only
      rw [hback]
      refine List.forall_mem_cons.mpr ⟨{ ho with size := rfl, suffix := List.suffix_refl _ }, ?_⟩
      intro k hk
      exact { houter k hk with
        size := (houter k hk).size.trans ho.size.symm
        suffix := hbelow k hk }
  | second =>
      obtain ⟨ho, houter⟩ := List.forall_mem_cons.mp hunder
      exact ⟨hfits, List.forall_mem_cons.mpr ⟨ho.second, houter⟩,
        List.pairwise_cons.mpr (List.pairwise_cons.mp hnested)⟩
  | closes =>
      exact ⟨hfits, (List.forall_mem_cons.mp hunder).2, (List.pairwise_cons.mp hnested).2⟩

/-- Any number of writings. -/
theorem Leads.valid (h : Leads p ps q) (hp : p.Valid clauses) : ∀ k ∈ p :: ps, k.Valid clauses := by
  induction h with
  | refl => exact List.forall_mem_singleton.mpr hp
  | cons hwrites _ ih => exact List.forall_mem_cons.mpr ⟨hp, ih (hwrites.valid hp)⟩

theorem Leads.valid_last (h : Leads p ps q) (hp : p.Valid clauses) : q.Valid clauses := by
  induction h with
  | refl => exact hp
  | cons hwrites _ ih => exact ih (hwrites.valid hp)

end

/-! ## The points of a node -/

section
variable {options : Options} {clauses : List (Clause × Nat)} {openings : List Opening}

theorem leads_scan {ok : Bool} {rest : List (Clause × Nat)} {s s' : State}
    (hs : Fits clauses s.trail) (hrest : ∀ c ∈ rest, c ∈ clauses)
    (h : scan options rest s = (s', ok)) :
    Leads ⟨openings, s.trail⟩ ((scanTrails rest s.trail).map (Point.mk openings))
      ⟨openings, s'.trail⟩ := by
  induction rest generalizing s with
  | nil =>
      cases h
      exact .refl
  | cons c rest ih =>
      obtain ⟨c, position⟩ := c
      have hc := hrest (c, position) List.mem_cons_self
      have hrest' := fun c hc => hrest c (List.mem_cons_of_mem _ hc)
      cases hstatus : s.trail.status c with
      | satisfied =>
          simp only [scan, hstatus] at h
          simp only [scanTrails, hstatus]
          exact ih hs hrest' h
      | undecided =>
          simp only [scan, hstatus] at h
          simp only [scanTrails, hstatus]
          exact ih hs hrest' h
      | unit l =>
          simp only [scan, hstatus] at h
          simp only [scanTrails, hstatus]
          obtain ⟨hl, hfree, _⟩ := Trail.status_eq_unit hs.inStep hstatus
          have hforced := ih (s := s.force options l position)
            (by rw [State.trail_force]; exact hs.force hc hstatus) hrest' h
          rw [State.trail_force] at hforced
          exact .cons (.assign hfree (hs.bound _ hc l hl)) hforced
      | falsified =>
          simp only [scan, hstatus] at h
          simp only [scanTrails, hstatus]
          cases h
          rw [State.trail_fail]
          exact .refl

variable (openings) in
theorem leads_propagate {ok : Bool} {s s' : State} (hs : Fits clauses s.trail)
    (h : propagate options clauses s = (s', ok)) :
    Leads ⟨openings, s.trail⟩ ((propagateTrails options clauses s).map (Point.mk openings))
      ⟨openings, s'.trail⟩ := by
  induction s using propagate.induct options clauses with
  | case1 s after hscan =>
      rw [propagate, hscan] at h
      cases h
      rw [propagateTrails, hscan]
      simp only [List.append_nil]
      exact leads_scan hs (fun _ hc => hc) hscan
  | case2 s after hscan hless ih =>
      rw [propagate, hscan] at h
      rw [propagateTrails, hscan]
      simp only [if_pos hless] at h ⊢
      rw [List.map_append]
      exact (leads_scan hs (fun _ hc => hc) hscan).append
        (ih (scan_settles hs (fun _ hc => hc) hscan).1 h)
  | case3 s after hscan hless =>
      rw [propagate, hscan] at h
      rw [propagateTrails, hscan]
      simp only [if_neg hless] at h ⊢
      cases h
      rw [List.append_nil]
      exact leads_scan hs (fun _ hc => hc) hscan

/-- Open literals of different variables are made true one after the other. -/
theorem leads_foldl_assignPure {ls : List Literal} {level : Nat} {s : State}
    (hopen : ∀ l ∈ ls, s.trail.value? l.var = none ∧ l.var < s.trail.values.size)
    (hnodup : (ls.map Literal.var).Nodup) :
    Leads ⟨openings, s.trail⟩ ((assignTrails ls s.trail).map (Point.mk openings))
      ⟨openings, (ls.foldl (State.assignPure options level) s).trail⟩ := by
  induction ls generalizing s with
  | nil => exact .refl
  | cons l ls ih =>
      obtain ⟨⟨hfree, hlt⟩, hothers⟩ := List.forall_mem_cons.mp hopen
      obtain ⟨hnot, hnodup⟩ := List.nodup_cons.mp hnodup
      have hrest := ih (s := s.assignPure options level l) (fun m hm => by
        have hne : m.var ≠ l.var := fun hvar => hnot (List.mem_map.mpr ⟨m, hm, hvar⟩)
        rw [State.trail_assignPure, Trail.value?_assign hlt, if_neg hne, Trail.size_assign]
        exact hothers m hm) hnodup
      rw [State.trail_assignPure] at hrest
      exact .cons (.assign hfree hlt) hrest

variable (options clauses openings) in
theorem leads_assignPure (level : Nat) (s : State) :
    Leads ⟨openings, s.trail⟩ ((pureTrails options clauses s.trail).map (Point.mk openings))
      ⟨openings,
        (if options.pureLiterals then assignPure options clauses level s else s).trail⟩ := by
  unfold pureTrails
  split
  · exact leads_foldl_assignPure
      (fun l hl => ⟨(idle_of_pure hl).isOpen, (idle_of_pure hl).bound⟩) (nodup_pureLiterals _)
  · exact .refl

/-- The point that a node ends at. -/
def Point.EndsNode (p : Point) : Node → Prop
  | .satisfied s => p.trail = s.trail
  | .refuted _ => p.openings = []
  | .next splits s => p.openings.map Opening.split = splits ∧ p.trail = s.trail

variable (options) in
/-- The splits that are given up are cut back to one after the other.  The second case of a split
can be entered because the literal of the first is open again. -/
theorem leads_reopen {s : State} (h : Point.Valid clauses ⟨openings, s.trail⟩) :
    ∃ q, Leads ⟨openings, s.trail⟩ (reopenPoints openings s.trail) q ∧
      q.EndsNode (reopen options (openings.map Opening.split) s) := by
  induction openings generalizing s with
  | nil => exact ⟨_, .refl, rfl⟩
  | cons o outer ih =>
      have hcut := Writes.cut.valid h
      have hback := (h.under o List.mem_cons_self).undo_eq h.fits.inStep
      have ho := h.under o List.mem_cons_self
      rw [List.map_cons, reopen.eq_def, reopenPoints]
      by_cases hsecond : o.split.negated = true
      · simp only [if_pos hsecond]
        obtain ⟨q, hleads, hends⟩ := ih (s := (s.back options o.split outer.length).log options
          (.exhausted o.split.literal.var outer.length)) (by
            rw [State.trail_log, State.trail_back]
            exact (Writes.closes hsecond).valid hcut)
        rw [State.trail_log, State.trail_back] at hleads
        rw [List.length_map]
        exact ⟨q, .cons .cut (.cons (.closes hsecond) hleads), hends⟩
      · simp only [if_neg hsecond]
        refine ⟨_, .cons .cut (.cons (.second (Bool.eq_false_iff.mpr hsecond))
          (.cons (.assign ?_ ?_) .refl)), rfl, ?_⟩
        · rw [hback, Literal.var_negate]
          exact ho.isOpen
        · rw [hback, Literal.var_negate]
          exact ho.bound
        · simp

variable (options clauses openings) in
theorem leads_branch (s : State) :
    ∃ q, Leads ⟨openings, s.trail⟩ (branchPoints clauses openings s.trail) q ∧
      q.EndsNode
        (match branch? (occurrences s.trail.values.size (openLiterals clauses s.trail)) with
        | none => .satisfied s
        | some l =>
          .next (⟨l, s.trail.length, false⟩ :: openings.map Opening.split)
            (s.decide options l (openings.length + 1))) := by
  unfold branchPoints
  split
  · exact ⟨_, .refl, rfl⟩
  · rename_i l hsome
    obtain ⟨hlt, m, hm, hvar⟩ := branch?_eq_some hsome
    obtain ⟨_, _, _, _, hopen⟩ := mem_openLiterals.mp hm
    have hfree : s.trail.value? l.var = none := hvar ▸ hopen
    refine ⟨_, .cons (.opens hfree hlt) (.cons (.assign hfree hlt) .refl), rfl, ?_⟩
    rw [State.trail_decide]

variable (options) in
theorem leads_step {s : State} (h : Point.Valid clauses ⟨openings, s.trail⟩) :
    ∃ q, Leads ⟨openings, s.trail⟩ (stepPoints options clauses openings s) q ∧
      q.EndsNode (step options clauses (openings.map Opening.split) s) := by
  unfold stepPoints step
  rcases hpropagate : propagate options clauses s with ⟨s', _ | _⟩
  · have hleads := leads_propagate openings h.fits hpropagate
    obtain ⟨q, hreopen, hends⟩ := leads_reopen options (hleads.valid_last h)
    exact ⟨q, hleads.append hreopen, hends⟩
  · have hleads := leads_propagate openings h.fits hpropagate
    have hpure := leads_assignPure options clauses openings openings.length s'
    obtain ⟨q, hbranch, hends⟩ := leads_branch options clauses openings
      (if options.pureLiterals then assignPure options clauses openings.length s' else s')
    simp only [List.length_map]
    exact ⟨q, hleads.append (hpure.append hbranch), hends⟩

/-! ## The points of a run -/

/-- The answer of a search is read off a point. -/
def Point.Answers (p : Point) : Outcome → Prop
  | .satisfiable model => p.trail.model = model
  | .unsatisfiable _ => p.openings = []
  | .unknown _ => True

theorem runPoints_eq_of_refused {s : State} {budget after : Budget} {reason : Exhaustion}
    (h : budget.spend = (some reason, after)) :
    runPoints options clauses openings s budget = [] := by
  rw [runPoints.eq_def]
  split
  · rfl
  · rename_i h'
    rw [h] at h'
    cases h'

theorem runPoints_eq_of_granted {s : State} {budget after : Budget}
    (h : budget.spend = (none, after)) :
    runPoints options clauses openings s budget =
      stepPoints options clauses openings s ++
        match step options clauses (openings.map Opening.split) s with
        | .next _ s' =>
          runPoints options clauses
            ((stepPoints options clauses openings s).getLastD ⟨openings, s.trail⟩).openings s' after
        | _ => [] := by
  rw [runPoints.eq_def]
  split
  · rename_i h'
    rw [h] at h'
    cases h'
  · rename_i h'
    rw [h] at h'
    cases h'
    rfl

variable (options) in
/-- The points of a run follow each other by writings, up to one that its answer is read off. -/
theorem leads_run {splits : List Split} {s : State}
    (hsplits : openings.map Opening.split = splits)
    (h : Point.Valid clauses ⟨openings, s.trail⟩) (budget : Budget) :
    ∃ q, Leads ⟨openings, s.trail⟩ (runPoints options clauses openings s budget) q ∧
      q.Answers (run options clauses splits s budget).outcome := by
  induction splits, s, budget using run.induct options clauses generalizing openings with
  | case1 splits s budget reason after hspend =>
      rw [run_eq_of_refused hspend, runPoints_eq_of_refused hspend]
      exact ⟨_, .refl, trivial⟩
  | case2 splits s budget after hspend _ s' hstep =>
      obtain ⟨q, hleads, hends⟩ := leads_step options h
      rw [run_eq_of_granted hspend, runPoints_eq_of_granted hspend, hsplits, hstep]
      rw [hsplits, hstep] at hends
      rw [List.append_nil]
      exact ⟨q, hleads, congrArg Trail.model hends⟩
  | case3 splits s budget after hspend _ s' hstep =>
      obtain ⟨q, hleads, hends⟩ := leads_step options h
      rw [run_eq_of_granted hspend, runPoints_eq_of_granted hspend, hsplits, hstep]
      rw [hsplits, hstep] at hends
      rw [List.append_nil]
      exact ⟨q, hleads, hends⟩
  | case4 splits s budget after hspend _ splits' s' hstep ih =>
      obtain ⟨⟨openings', t⟩, hleads, hends⟩ := leads_step options h
      rw [run_eq_of_granted hspend, runPoints_eq_of_granted hspend, hsplits, hstep,
        hleads.getLastD_eq]
      rw [hsplits, hstep] at hends
      obtain ⟨hsplits', rfl⟩ := hends
      obtain ⟨q, hrest, hanswers⟩ := ih hsplits' (hleads.valid_last h)
      exact ⟨q, hleads.append hrest, hanswers⟩

end

/-- At every point of every search a variable has a value exactly when its literal of that sign is
on the trail, which has each variable at most once; the marks of the open splits do not decrease
inwards, and to cut the trail back to any of them restores table and trail as they were when the
split was opened.  The points follow each other by writings, which make a literal true only while
its variable has no value, from the empty trail to the point that the answer is read off. -/
theorem history_inStep (options : Options) (size : Nat) (clauses : List Clause) (budget : Budget) :
    (∀ p ∈ history options size clauses budget,
      p.trail.InStep ∧
        p.openings.Pairwise (fun inner outer => outer.split.mark ≤ inner.split.mark) ∧
        ∀ o ∈ p.openings, p.trail.undo o.split.mark = o.before) ∧
      (history options size clauses budget).IsChain Writes ∧
      ∃ last, (history options size clauses budget).getLast? = some last ∧
        last.Answers (solve options size clauses budget).outcome := by
  have hvalid : Point.Valid clauses.zipIdx
      ⟨[], Trail.start (max size (variableBound clauses))⟩ :=
    ⟨(valid_start size clauses).fits, List.forall_mem_nil _, .nil⟩
  obtain ⟨last, hleads, hanswers⟩ := leads_run options
    (s := ⟨Trail.start (max size (variableBound clauses)), [], []⟩) rfl hvalid budget
  refine ⟨fun p hp => ?_, hleads.isChain, last, ?_, hanswers⟩
  · have hp := hleads.valid hvalid p hp
    exact ⟨hp.fits.inStep, hp.marks, fun o ho => (hp.under o ho).undo_eq hp.fits.inStep⟩
  · rw [history, List.getLast?_cons, ← List.getLastD_eq_getLast?, hleads.getLastD_eq]

/-- Each case of the one split makes a second literal true, fails and is cut back. -/
example :
    (history {} 2
      [.ofList [⟨0, true⟩, ⟨1, true⟩], .ofList [⟨0, true⟩, ⟨1, false⟩],
        .ofList [⟨0, false⟩, ⟨1, true⟩], .ofList [⟨0, false⟩, ⟨1, false⟩]]
      ⟨10, 0, false, false⟩).map (fun p => (p.openings.length, p.trail.literals.map Literal.var)) =
    [(0, []), (1, []), (1, [0]), (1, [1, 0]), (1, []), (1, []), (1, [0]), (1, [1, 0]), (1, []),
      (0, [])] := by
  decide +kernel

end Elenchus.Search
