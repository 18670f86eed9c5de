import Elenchus.Proofs.Derivation.Acceptance
import Elenchus.Proofs.Search.Log

/-!
# The log of a search is replayed and accepted

Three machines run side by side: the search, the builder that replays its log, and the checker that
reads what the builder writes.  `Follows` relates their states, for a finished list of steps `full`
that goes on from what is written:

* the literals derived in the open cases are the trail of the search, and where a case begins the
  split was made (`Framed`);
* a derived literal stands on a line of the scope of its case, and so do the premises at the bottom;
* a case that was closed ends in falsity and is kept by the case around it, until the other one is
  closed too.

A derived literal that is a choice of the search may not be cited.  It never is: all clauses with
its negation are satisfied by the trail at or below it, and a clause that forces a literal or is
falsified is satisfied by nothing.

`tracks_of_moves` is the simulation: whatever a search does, its log is replayed, and the checker
accepts what is written.
-/

namespace Elenchus

open Search

/-- The literals derived in some cases, the latest first. -/
def derivedLiterals (frames : List CaseFrame) : List Literal :=
  frames.flatMap fun f => f.derived.map Prod.fst

theorem mem_derivedLiterals {frames : List CaseFrame} {l : Literal} :
    l ∈ derivedLiterals frames ↔ ∃ f ∈ frames, ∃ n, (l, n) ∈ f.derived := by
  simp [derivedLiterals]

/-! ## Cases, frames and scopes -/

section
variable (clauses : List Clause) (full : List Step)

/-- What the step with a number states. -/
def States (n : Nat) (statement : Statement) : Prop :=
  ∃ t, Checker.step? full n = some t ∧ t.statement = statement

/-- A derived literal of the innermost of some cases stands on a line of its scope.  If it is a
choice of the search, every clause with its negation has a literal that is derived. -/
structure Entry (frames : List CaseFrame) (lines : List Nat) (e : Literal × Nat) : Prop where
  line : e.2 ∈ lines
  step : ∃ t, Checker.step? full e.2 = some t ∧ t.statement = .literal e.1 ∧
    (t.justification = .pureLiteral → ∀ c ∈ clauses, e.1.negate ∈ c.literals →
      ∃ m ∈ c.literals, m ∈ derivedLiterals frames)

/-- A case on a literal, one deeper than the given depth, that was opened after a line and has ended
in falsity. -/
structure Ended (closed : List ClosedCase) (opened depth : Nat) (l : Literal) (case : Nat × Nat) :
    Prop where
  isClosed : ⟨case.1, case.2, depth + 1⟩ ∈ closed
  opened : opened < case.1
  hypothesis : States full case.1 (.literal l)
  bottom : States full case.2 .bottom

/-- While the first case of a split is open no case is kept around it; while the second one is, the
first one is kept, and has ended. -/
def Kept (closed : List ClosedCase) (opened depth : Nat) (split : Split)
    (cases : List (Nat × Nat)) : Prop :=
  if split.negated then ∃ case, cases = [case] ∧ Ended full closed opened depth split.literal case
  else cases = []

/-- The open splits of a search, the open cases of a builder and the open scopes of a checker. -/
inductive Framed (closed : List ClosedCase) :
    List Split → List CaseFrame → List (List Nat) → Prop
  | outermost {f : CaseFrame} {lines : List Nat} :
      (∀ e ∈ f.derived, Entry clauses full [f] lines e) →
      (∀ i < clauses.length, i + 1 ∈ lines) → Framed closed [] [f] [lines]
  | case {split : Split} {splits : List Split} {f parent : CaseFrame} {frames : List CaseFrame}
      {lines next : List Nat} {scopes : List (List Nat)} {first : Nat} :
      Framed closed splits (parent :: frames) (next :: scopes) →
      (∀ e ∈ f.derived, Entry clauses full (f :: parent :: frames) lines e) →
      split.mark = (derivedLiterals (parent :: frames)).length →
      f.assumption = some first → lines.getLast? = some first → next.getLast?.getD 0 < first →
      States full first (.literal split.chosen) →
      Kept full closed (next.getLast?.getD 0) frames.length split parent.cases →
      Framed closed (split :: splits) (f :: parent :: frames) (lines :: next :: scopes)

end

section
variable {clauses : List Clause} {full : List Step} {closed closed' : List ClosedCase}
  {splits : List Split} {f f' : CaseFrame} {frames : List CaseFrame} {lines : List Nat}
  {scopes : List (List Nat)}

theorem derivedLiterals_congr (h : f'.derived = f.derived) :
    derivedLiterals (f' :: frames) = derivedLiterals (f :: frames) := by
  simp only [derivedLiterals, List.flatMap_cons, h]

/-- More derived literals and more lines. -/
theorem Entry.mono {frames' : List CaseFrame} {lines' : List Nat} {e : Literal × Nat}
    (h : Entry clauses full frames lines e) (hlines : ∀ n ∈ lines, n ∈ lines')
    (hframes : ∀ l ∈ derivedLiterals frames, l ∈ derivedLiterals frames') :
    Entry clauses full frames' lines' e := by
  obtain ⟨t, ht, hs, hidle⟩ := h.step
  refine ⟨hlines _ h.line, t, ht, hs, ?_⟩
  intro hpure c hc hneg
  obtain ⟨m, hm, hmem⟩ := hidle hpure c hc hneg
  exact ⟨m, hm, hframes m hmem⟩

theorem Ended.mono {opened depth : Nat} {l : Literal} {case : Nat × Nat}
    (h : Ended full closed opened depth l case) (hsub : ∀ c ∈ closed, c ∈ closed') :
    Ended full closed' opened depth l case :=
  ⟨hsub _ h.isClosed, h.opened, h.hypothesis, h.bottom⟩

theorem Kept.mono {opened depth : Nat} {split : Split} {cases : List (Nat × Nat)}
    (h : Kept full closed opened depth split cases) (hsub : ∀ c ∈ closed, c ∈ closed') :
    Kept full closed' opened depth split cases := by
  unfold Kept at h ⊢
  split
  · rename_i hsecond
    rw [if_pos hsecond] at h
    obtain ⟨case, hcases, hended⟩ := h
    exact ⟨case, hcases, hended.mono hsub⟩
  · rename_i hfirst
    rw [if_neg hfirst] at h
    exact h

/-- More cases are closed. -/
theorem Framed.mono (h : Framed clauses full closed splits frames scopes)
    (hsub : ∀ c ∈ closed, c ∈ closed') : Framed clauses full closed' splits frames scopes := by
  induction h with
  | outermost hentries hpremises => exact .outermost hentries hpremises
  | case _ hentries hmark hassumption hlast hopened hstates hkept ih =>
      exact .case ih hentries hmark hassumption hlast hopened hstates (hkept.mono hsub)

/-- What the innermost case keeps of its end and of the cases inside does not matter. -/
theorem Framed.frame (h : Framed clauses full closed splits (f :: frames) scopes)
    (hderived : f'.derived = f.derived) (hassumption : f'.assumption = f.assumption) :
    Framed clauses full closed splits (f' :: frames) scopes := by
  have hliterals (fs : List CaseFrame) : ∀ l ∈ derivedLiterals (f :: fs),
      l ∈ derivedLiterals (f' :: fs) := fun l hl => by
    rw [derivedLiterals_congr hderived]
    exact hl
  cases h with
  | outermost hentries hpremises =>
      refine .outermost ?_ hpremises
      intro e he
      exact (hentries e (hderived ▸ he)).mono (fun _ hn => hn) (hliterals _)
  | case hinner hentries hmark hassume hlast hopened hstates hkept =>
      refine .case hinner ?_ hmark (hassumption.trans hassume) hlast hopened hstates
        hkept
      intro e he
      exact (hentries e (hderived ▸ he)).mono (fun _ hn => hn) (hliterals _)

/-- One more line in the innermost scope. -/
theorem Framed.write (h : Framed clauses full closed splits (f :: frames) (lines :: scopes))
    (n : Nat) : Framed clauses full closed splits (f :: frames) ((n :: lines) :: scopes) := by
  cases h with
  | outermost hentries hpremises =>
      refine .outermost ?_ fun i hi => List.mem_cons_of_mem _ (hpremises i hi)
      intro e he
      exact (hentries e he).mono (fun _ => List.mem_cons_of_mem _) (fun _ hl => hl)
  | case hinner hentries hmark hassume hlast hopened hstates hkept =>
      refine .case hinner ?_ hmark hassume ?_ hopened hstates hkept
      · intro e he
        exact (hentries e he).mono (fun _ => List.mem_cons_of_mem _) (fun _ hl => hl)
      · rw [List.getLast?_cons, hlast]
        rfl

/-- One more derived literal in the innermost case, on a line of its scope. -/
theorem Framed.derive {l : Literal} {n : Nat}
    (h : Framed clauses full closed splits (f :: frames) (lines :: scopes))
    (hderived : f'.derived = (l, n) :: f.derived) (hassumption : f'.assumption = f.assumption)
    (hentry : Entry clauses full (f' :: frames) lines (l, n)) :
    Framed clauses full closed splits (f' :: frames) (lines :: scopes) := by
  have hliterals (fs : List CaseFrame) : ∀ m ∈ derivedLiterals (f :: fs),
      m ∈ derivedLiterals (f' :: fs) := fun m hm => by
    simp only [derivedLiterals, List.flatMap_cons, hderived] at hm ⊢
    exact List.mem_cons_of_mem _ hm
  cases h with
  | outermost hentries hpremises =>
      refine .outermost ?_ hpremises
      intro e he
      rw [hderived] at he
      rcases List.mem_cons.mp he with rfl | he
      · exact hentry
      · exact (hentries e he).mono (fun _ hn => hn) (hliterals _)
  | case hinner hentries hmark hassume hlast hopened hstates hkept =>
      refine .case hinner ?_ hmark (hassumption.trans hassume) hlast hopened hstates
        hkept
      intro e he
      rw [hderived] at he
      rcases List.mem_cons.mp he with rfl | he
      · exact hentry
      · exact (hentries e he).mono (fun _ hn => hn) (hliterals _)

/-- Every derived literal has its line in an open scope. -/
theorem Framed.entry (h : Framed clauses full closed splits frames scopes) {e : Literal × Nat}
    (hf : f ∈ frames) (he : e ∈ f.derived) :
    ∃ lines ∈ scopes, Entry clauses full frames lines e := by
  induction h with
  | @outermost g lines hentries _ =>
      rw [List.mem_singleton.mp hf] at he
      exact ⟨lines, List.mem_cons_self, hentries e he⟩
  | @case _ _ g parent frames lines _ _ _ _ hentries _ _ _ _ _ _ ih =>
      rcases List.mem_cons.mp hf with rfl | hf
      · exact ⟨lines, List.mem_cons_self, hentries e he⟩
      · obtain ⟨lines', hlines', hentry⟩ := ih hf
        refine ⟨lines', List.mem_cons_of_mem _ hlines', hentry.mono (fun _ hn => hn) ?_⟩
        intro m hm
        rw [derivedLiterals, List.flatMap_cons]
        exact List.mem_append_right _ hm

/-- The premises stand in the outermost scope. -/
theorem Framed.premise (h : Framed clauses full closed splits frames scopes) {i : Nat}
    (hi : i < clauses.length) : ∃ lines ∈ scopes, i + 1 ∈ lines := by
  induction h with
  | outermost _ hpremises => exact ⟨_, List.mem_cons_self, hpremises i hi⟩
  | case _ _ _ _ _ _ _ _ ih =>
      obtain ⟨lines, hlines, hmem⟩ := ih
      exact ⟨lines, List.mem_cons_of_mem _ hlines, hmem⟩

end

/-! ## Looking up -/

/-- A list of actions that may each be done may be done together. -/
theorem exists_mapM_eq_ok {ε α β : Type} {f : α → Except ε β} {as : List α}
    (h : ∀ a ∈ as, ∃ b, f a = .ok b) : ∃ bs, as.mapM f = .ok bs := by
  induction as with
  | nil => exact ⟨[], rfl⟩
  | cons a as ih =>
      obtain ⟨b, hb⟩ := h a List.mem_cons_self
      obtain ⟨bs, hbs⟩ := ih fun a ha => h a (List.mem_cons_of_mem _ ha)
      exact ⟨b :: bs, mapM_eq_ok.mpr (.cons hb (mapM_eq_ok.mp hbs))⟩

namespace Builder

variable {b : Builder} {l : Literal} {n : Nat}

/-- The step of a literal was noted down when the literal was derived. -/
theorem mem_of_lineOf (h : b.lineOf l = .ok n) :
    ∃ f ∈ b.frame :: b.outer, (l, n) ∈ f.derived := by
  unfold lineOf at h
  split at h
  · rename_i line hfind
    cases h
    obtain ⟨f, hf, hlookup⟩ := List.exists_of_findSome?_eq_some hfind
    obtain ⟨_, _, hderived, _⟩ := List.lookup_eq_some_iff.mp hlookup
    exact ⟨f, hf, hderived ▸ List.mem_append_right _ List.mem_cons_self⟩
  · cases h

/-- A derived literal has a step. -/
theorem exists_lineOf (h : l ∈ derivedLiterals (b.frame :: b.outer)) : ∃ n, b.lineOf l = .ok n := by
  obtain ⟨f, hf, n, hn⟩ := mem_derivedLiterals.mp h
  have hsome : ((b.frame :: b.outer).findSome? fun f => f.derived.lookup l).isSome := by
    rw [List.findSome?_isSome_iff]
    exact ⟨f, hf, List.lookup_isSome_iff.mpr ⟨(l, n), hn, beq_self_eq_true l⟩⟩
  obtain ⟨line, hline⟩ := Option.isSome_iff_exists.mp hsome
  exact ⟨line, by rw [lineOf, hline]⟩

theorem exists_antecedents {c : Clause} {kept : Literal}
    (h : ∀ m ∈ c.literals, m ≠ kept → m.negate ∈ derivedLiterals (b.frame :: b.outer)) :
    ∃ lines, b.antecedents c kept = .ok lines := by
  apply exists_mapM_eq_ok
  intro m hm
  obtain ⟨hm, hne⟩ := List.mem_filter.mp hm
  exact exists_lineOf (h m hm (of_decide_eq_true hne))

end Builder

/-- A visible line is written before the step that is checked. -/
theorem Checker.Placed.lt_of_visible {steps : List Step} {k : Checker} {line n : Nat}
    (h : Placed steps k line) (hv : k.isVisible n = true) : n < line := by
  obtain ⟨lines, hlines, hn⟩ := isVisible_iff.mp hv
  obtain ⟨front, back, hstack⟩ := List.append_of_mem hlines
  exact (h.lines lines back ⟨front, hstack.symm⟩ n hn).1

/-! ## The three machines -/

/-- The states of the search, the builder and the checker belong together. -/
structure Follows (clauses : List Clause) (full : List Step) (config : Config) (b : Builder)
    (k : Checker) : Prop where
  reads : b.Reads full k
  framed : Framed clauses full k.closed config.splits (b.frame :: b.outer) k.stack
  trail : config.state.trail.literals = derivedLiterals (b.frame :: b.outer)
  premises : ∀ i c, clauses[i]? = some c → ∃ propositions source,
    Checker.step? full (i + 1) = some ⟨0, .clause c, .premise propositions source⟩
  failed : config.failed = true → b.frame.bottom = some b.count ∧
    k.scope.head? = some b.count ∧ States full b.count .bottom

section
variable {clauses : List Clause} {full : List Step} {splits : List Split} {s s' : State}
  {config : Config} {b b' : Builder} {k : Checker} {c : Clause} {l : Literal} {position n : Nat}

namespace Follows

/-- The premises may be cited. -/
theorem clause (h : Follows clauses full config b k) (hc : clauses[position]? = some c) :
    k.citedClause full (b.count + 1) (position + 1) = .ok c := by
  have hlt : position < clauses.length := (List.getElem?_eq_some_iff.mp hc).1
  have hv : k.isVisible (position + 1) = true := Checker.isVisible_iff.mpr (h.framed.premise hlt)
  obtain ⟨propositions, source, hstep⟩ := h.premises position c hc
  exact Checker.citedClause_eq (h.reads.placed.lt_of_visible hv) hv hstep

/-- A derived literal may be cited when its negation occurs in a clause that is not satisfied. -/
theorem literal (h : Follows clauses full config b k) (hl : b.lineOf l = .ok n) (hc : c ∈ clauses)
    (hneg : l.negate ∈ c.literals) (hnot : ∀ m ∈ c.literals, m ∉ config.state.trail.literals) :
    k.citedLiteral full (b.count + 1) n = .ok l := by
  obtain ⟨f, hf, hderived⟩ := Builder.mem_of_lineOf hl
  obtain ⟨lines, hlines, hentry⟩ := h.framed.entry hf hderived
  have hv : k.isVisible n = true := Checker.isVisible_iff.mpr ⟨lines, hlines, hentry.line⟩
  obtain ⟨t, ht, hstatement, hidle⟩ := hentry.step
  refine Checker.citedLiteral_eq (h.reads.placed.lt_of_visible hv) hv ?_ ht hstatement
  intro hn
  obtain ⟨t', ht', hpure⟩ := h.reads.uncitable hn
  cases ht.symm.trans ht'
  obtain ⟨m, hm, hmem⟩ := hidle hpure c hc hneg
  rw [h.trail] at hnot
  exact hnot m hm hmem

/-- A literal of a clause that is not satisfied follows from the steps that refute the others. -/
theorem forced {lines : List Nat} (h : Follows clauses full config b k)
    (hc : clauses[position]? = some c) (hl : l ∈ c.literals)
    (hnot : ∀ m ∈ c.literals, m ∉ config.state.trail.literals)
    (hlines : b.antecedents c l = .ok lines) :
    k.justify full (b.count + 1)
      ⟨b.outer.length, .literal l, .unitResolution (position + 1) lines⟩ = .ok () := by
  refine Checker.justify_unitResolution hl (h.clause hc) ?_
  rw [List.forall₂_map_right_iff]
  have hothers := (List.forall₂_and_left _ _).mpr
    ⟨fun m (hm : m ∈ c.literals.filter (· ≠ l)) => List.mem_of_mem_filter hm, mapM_eq_ok.mp hlines⟩
  refine List.Forall₂.flip (hothers.imp ?_)
  intro m n hm
  exact h.literal hm.2 (List.mem_of_getElem? hc) (by rw [Literal.negate_negate]; exact hm.1) hnot

/-! ## Writing a line -/

/-- A line that no case notes down. -/
theorem push {statement : Statement} {justification : Justification}
    (h : Follows clauses full ⟨splits, s, false⟩ b k)
    (hfull : (b.push statement justification).steps.reverse <+: full)
    (hassume : justification ≠ .assumption)
    (hj : k.justify full (b.count + 1) ⟨b.outer.length, statement, justification⟩ = .ok ()) :
    Follows clauses full ⟨splits, s, false⟩ (b.push statement justification)
      (k.write (b.count + 1) ⟨b.outer.length, statement, justification⟩) :=
  ⟨h.reads.push hfull hassume hj, h.framed.write (b.count + 1), h.trail, h.premises,
    fun h => absurd h Bool.false_ne_true⟩

/-- A line that derives a literal. -/
theorem derive {justification : Justification}
    (h : Follows clauses full ⟨splits, s, false⟩ b k)
    (hfull : (b.derive l justification).steps.reverse <+: full)
    (hassume : justification ≠ .assumption)
    (hj : k.justify full (b.count + 1) ⟨b.outer.length, .literal l, justification⟩ = .ok ())
    (hidle : justification = .pureLiteral → ∀ c ∈ clauses, l.negate ∈ c.literals →
      ∃ m ∈ c.literals, m ∈ s.trail.literals)
    (htrail : s'.trail.literals = l :: s.trail.literals) :
    Follows clauses full ⟨splits, s', false⟩ (b.derive l justification)
      (k.write (b.count + 1) ⟨b.outer.length, .literal l, justification⟩) := by
  have hpushed := h.push hfull hassume hj
  have hliterals : derivedLiterals ((b.derive l justification).frame :: b.outer) =
      l :: derivedLiterals (b.frame :: b.outer) := rfl
  refine ⟨hpushed.reads.frame rfl rfl rfl, ?_, ?_, h.premises,
    fun h => absurd h Bool.false_ne_true⟩
  · refine hpushed.framed.derive rfl rfl ⟨List.mem_cons_self, _, h.reads.next hfull, rfl, ?_⟩
    intro hpure c hc hneg
    obtain ⟨m, hm, hmem⟩ := hidle hpure c hc hneg
    refine ⟨m, hm, ?_⟩
    rw [h.trail] at hmem
    exact List.mem_cons_of_mem _ hmem
  · show s'.trail.literals = derivedLiterals ((b.derive l justification).frame :: b.outer)
    rw [htrail, hliterals]
    exact congrArg (List.cons l) h.trail

/-- A line that states falsity, at which the node has failed. -/
theorem conclude {justification : Justification}
    (h : Follows clauses full ⟨splits, s, false⟩ b k)
    (hfull : (b.conclude justification).steps.reverse <+: full)
    (hassume : justification ≠ .assumption)
    (hj : k.justify full (b.count + 1) ⟨b.outer.length, .bottom, justification⟩ = .ok ())
    (htrail : s'.trail.literals = s.trail.literals) :
    Follows clauses full ⟨splits, s', true⟩ (b.conclude justification)
      (k.write (b.count + 1) ⟨b.outer.length, .bottom, justification⟩) := by
  have hpushed := h.push hfull hassume hj
  refine ⟨hpushed.reads.frame rfl rfl rfl, hpushed.framed.frame rfl rfl, ?_, h.premises, ?_⟩
  · rw [htrail]
    exact h.trail
  · intro _
    exact ⟨rfl, rfl, _, h.reads.next hfull, rfl⟩

end Follows

/-! ## Opening and closing a case -/

/-- The builder after a case is opened. -/
def Builder.opened (b : Builder) (l : Literal) : Builder where
  steps := ⟨b.outer.length + 1, .literal l, .assumption⟩ :: b.steps
  count := b.count + 1
  frame := { assumption := some (b.count + 1), derived := [(l, b.count + 1)] }
  outer := b.frame :: b.outer

theorem Builder.replay_decision (level : Nat) :
    b.replay clauses (.decision l level) = .ok (b.opened l) := rfl

/-- The builder after a case is closed. -/
def Builder.closed (b : Builder) (parent : CaseFrame) (outer : List CaseFrame) (first : Nat) :
    Builder :=
  { b with frame := { parent with cases := parent.cases ++ [(first, b.count)] }, outer }

theorem Builder.replay_backtrack {parent : CaseFrame} {outer : List CaseFrame} {first : Nat}
    (houter : b.outer = parent :: outer) (hassumption : b.frame.assumption = some first)
    (hbottom : b.frame.bottom = some b.count) (level : Nat) :
    b.replay clauses (.backtrack level) = .ok (b.closed parent outer first) := by
  simp only [Builder.replay, houter, hassumption, hbottom]
  rfl

/-- A scope that is left becomes a closed case. -/
theorem Checker.closed_pop {first last : Nat} {next : List Nat} {rest : List (List Nat)}
    (houter : k.outer = next :: rest) (hfirst : k.scope.getLast? = some first)
    (hlast : k.scope.head? = some last) :
    ⟨first, last, rest.length + 1⟩ ∈ k.pop.closed ∧ (∀ case ∈ k.closed, case ∈ k.pop.closed) ∧
      k.pop.scope = next ∧ k.pop.outer = rest := by
  obtain ⟨scope, outer, closed, uncitable⟩ := k
  cases houter
  refine ⟨?_, fun case hcase => List.mem_append_right _ hcase, rfl, rfl⟩
  refine List.mem_append_left _ ?_
  simp only at hfirst hlast
  rw [closeScope, hfirst, hlast]
  exact List.mem_singleton_self _

/-- A case is opened on a literal; the cases kept around it are those that belong to the split. -/
theorem Follows.open (split : Split) (h : Follows clauses full ⟨splits, s, false⟩ b k)
    (hfull : (b.opened split.chosen).steps.reverse <+: full)
    (hmark : split.mark = s.trail.literals.length)
    (hkept : Kept full k.closed (k.scope.getLast?.getD 0) b.outer.length split b.frame.cases)
    (htrail : s'.trail.literals = split.chosen :: s.trail.literals) :
    Follows clauses full ⟨split :: splits, s', false⟩ (b.opened split.chosen)
      (k.enter (b.count + 1)) := by
  have hnext : Checker.step? full (b.count + 1) =
      some ⟨b.outer.length + 1, .literal split.chosen, .assumption⟩ := h.reads.next hfull
  have hopened : k.scope.getLast?.getD 0 < b.count + 1 := by
    cases hlast : k.scope.getLast? with
    | none => exact Nat.succ_pos _
    | some n =>
        refine h.reads.placed.lt_of_visible (Checker.isVisible_iff.mpr ⟨k.scope, ?_, ?_⟩)
        · exact List.mem_cons_self
        · exact List.mem_of_getLast? hlast
  refine ⟨h.reads.openCase rfl rfl rfl hfull, ?_, ?_, h.premises,
    fun h => absurd h Bool.false_ne_true⟩
  · refine .case h.framed ?_ ?_ rfl rfl hopened ⟨_, hnext, rfl⟩ hkept
    · intro e he
      rw [List.mem_singleton.mp he]
      exact ⟨List.mem_singleton_self _, _, hnext, rfl, Justification.noConfusion⟩
    · rw [hmark]
      exact congrArg List.length h.trail
  · rw [htrail]
    exact congrArg (List.cons split.chosen) h.trail

/-- What the innermost case keeps of the cases inside does not matter to the others. -/
theorem Follows.frame (h : Follows clauses full ⟨splits, s, false⟩ b k) (cases : List (Nat × Nat)) :
    Follows clauses full ⟨splits, s, false⟩ { b with frame := { b.frame with cases } } k :=
  ⟨h.reads.frame rfl rfl rfl, h.framed.frame rfl rfl, h.trail, h.premises,
    fun h => absurd h Bool.false_ne_true⟩

/-- A node that has failed inside a split has a case open, which has ended in falsity. -/
theorem Follows.exists_case {split : Split}
    (h : Follows clauses full ⟨split :: splits, s, true⟩ b k) :
    ∃ parent outer first, b.outer = parent :: outer ∧ b.frame.assumption = some first ∧
      b.frame.bottom = some b.count := by
  obtain ⟨_, hframed, _, _, hfailed⟩ := h
  generalize b.outer = frames at hframed ⊢
  generalize k.stack = scopes at hframed
  cases hframed with
  | case _ _ _ hassumption _ _ _ _ => exact ⟨_, _, _, rfl, hassumption, (hfailed rfl).1⟩

/-- A case that has failed is closed. -/
theorem Follows.close {split : Split} {parent : CaseFrame} {outer : List CaseFrame} {first : Nat}
    (s' : State) (h : Follows clauses full ⟨split :: splits, s, true⟩ b k)
    (houter : b.outer = parent :: outer) (hassumption : b.frame.assumption = some first)
    (htrail : s'.trail.literals = (s.trail.undo split.mark).literals) :
    Follows clauses full ⟨splits, s', false⟩ (b.closed parent outer first) k.pop ∧
      split.mark = s'.trail.literals.length ∧
      Ended full k.pop.closed (k.pop.scope.getLast?.getD 0) outer.length split.chosen
        (first, b.count) ∧
      Kept full k.pop.closed (k.pop.scope.getLast?.getD 0) outer.length split parent.cases := by
  obtain ⟨hreads, hframed, hliterals, hpremises, hfailed⟩ := h
  obtain ⟨_, hhead, hbottom⟩ := hfailed rfl
  have hdepth : k.outer.length = outer.length + 1 := hreads.depth.trans (congrArg _ houter)
  rw [houter] at hframed hliterals
  generalize hscopes : k.stack = scopes at hframed
  cases hframed with
  | @case _ _ _ _ _ lines next scopes first' hinner _ hmark hassume hlast hopened hstates hkept =>
      cases hassumption.symm.trans hassume
      obtain ⟨rfl, hnext⟩ := List.cons.inj hscopes
      obtain ⟨hcase, hsub, hscope, hrest⟩ := Checker.closed_pop hnext hlast hhead
      rw [hnext, List.length_cons, Nat.add_right_cancel_iff] at hdepth
      have hparts : s.trail.literals =
          b.frame.derived.map Prod.fst ++ derivedLiterals (parent :: outer) := hliterals
      have hcut : (s.trail.undo split.mark).literals = derivedLiterals (parent :: outer) := by
        rw [hmark, Trail.literals_undo hparts]
      rw [hcut] at htrail
      refine ⟨⟨?_, ?_, htrail, hpremises, fun h => absurd h Bool.false_ne_true⟩, ?_, ?_, ?_⟩
      · exact hreads.closeCase rfl rfl (congrArg List.length houter)
      · rw [Checker.stack, hscope, hrest]
        exact (hinner.mono hsub).frame rfl rfl
      · rw [htrail]
        exact hmark
      · rw [hscope]
        exact ⟨hdepth ▸ hcase, hopened, hstates, hbottom⟩
      · rw [hscope]
        exact hkept.mono hsub

end

end Elenchus
