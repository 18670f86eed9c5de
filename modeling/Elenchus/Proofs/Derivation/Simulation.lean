import Elenchus.Proofs.Derivation.Replay

/-!
# The simulation of a search by a derivation

`Tracks.move` takes one move of the search: the events that it logs are replayed, and the relation
of `Replay.lean` holds again, whatever list of steps the derivation becomes part of.
`tracks_of_moves` is the same for any number of moves, and `Tracks.check` reads off the end that a
search with no case left has a derivation, and that the checker accepts it.

Of the search only the moves are used, and of a move only what it has checked: the status of a
clause is what makes the builder find the steps it cites, and what keeps choices from being cited.
-/

namespace Elenchus

open Search

/-! ## Replaying -/

section
variable {clauses : List Clause} {b b' b'' : Builder} {c : Clause} {l : Literal} {position : Nat}

theorem Builder.replayAll_append {events events' : List Event}
    (h : b.replayAll clauses events = .ok b') (h' : b'.replayAll clauses events' = .ok b'') :
    b.replayAll clauses (events ++ events') = .ok b'' := by
  induction events generalizing b with
  | nil =>
      cases h
      exact h'
  | cons event events ih =>
      obtain ⟨next, hnext, h⟩ := bind_eq_ok.mp h
      exact bind_eq_ok.mpr ⟨next, hnext, ih h⟩

theorem Builder.replayAll_one {event : Event} (h : b.replay clauses event = .ok b') :
    b.replayAll clauses [event] = .ok b' :=
  bind_eq_ok.mpr ⟨b', h, rfl⟩

theorem Builder.replayAll_two {event event' : Event} (h : b.replay clauses event = .ok b')
    (h' : b'.replay clauses event' = .ok b'') : b.replayAll clauses [event, event'] = .ok b'' :=
  bind_eq_ok.mpr ⟨b', h, replayAll_one h'⟩

theorem Builder.clauseAt_eq (hc : clauses[position]? = some c) :
    Builder.clauseAt clauses position = .ok c := by
  rw [Builder.clauseAt, hc]

theorem Builder.replay_propagation {lines : List Nat} (hc : clauses[position]? = some c)
    (hlines : b.antecedents c l = .ok lines) :
    b.replay clauses (.propagation l position) =
      .ok (b.derive l (.unitResolution (position + 1) lines)) :=
  bind_eq_ok.mpr ⟨c, clauseAt_eq hc, bind_eq_ok.mpr ⟨lines, hlines, rfl⟩⟩

theorem Builder.replay_conflict_empty (hc : clauses[position]? = some c)
    (hempty : c.literals = []) :
    b.replay clauses (.conflict position) = .ok (b.conclude (.emptyClause (position + 1))) := by
  refine bind_eq_ok.mpr ⟨c, clauseAt_eq hc, ?_⟩
  rw [hempty]
  rfl

theorem Builder.replay_conflict {first : Literal} {others : List Literal} {lines : List Nat}
    {negative : Nat} (hc : clauses[position]? = some c) (hcons : c.literals = first :: others)
    (hlines : b.antecedents c first = .ok lines)
    (hnegative : b.lineOf first.negate = .ok negative) :
    b.replay clauses (.conflict position) =
      .ok ((b.push (.literal first) (.unitResolution (position + 1) lines)).conclude
        (.contradiction (b.count + 1) negative)) := by
  refine bind_eq_ok.mpr ⟨c, clauseAt_eq hc, ?_⟩
  rw [hcons]
  exact bind_eq_ok.mpr ⟨lines, hlines, bind_eq_ok.mpr ⟨negative, hnegative, rfl⟩⟩

end

/-! ## One move -/

/-- The builder has replayed what the search did, and the checker accepts what is written, whatever
is written after it. -/
structure Tracks (clauses : List Clause) (config : Config) (b : Builder) : Prop where
  cases : b.frame.cases = []
  follows : ∀ full, b.steps.reverse <+: full → ∃ k, Follows clauses full config b k

section
variable {clauses : List Clause} {options : Options} {splits : List Split} {s : State} {b : Builder}
  {c : Clause} {l : Literal} {position : Nat}

/-- The trail of the search is what is derived in the open cases. -/
theorem Tracks.trail {config : Config} (h : Tracks clauses config b) :
    config.state.trail.literals = derivedLiterals (b.frame :: b.outer) := by
  obtain ⟨_, hk⟩ := h.follows _ (List.prefix_refl _)
  exact hk.trail

theorem Tracks.force (h : Tracks clauses ⟨splits, s, false⟩ b) (hs : s.trail.InStep)
    (hc : clauses[position]? = some c) (hunit : s.trail.status c = .unit l) :
    ∃ b', b.replayAll clauses [.propagation l position] = .ok b' ∧
      Tracks clauses ⟨splits, s.force options l position, false⟩ b' := by
  obtain ⟨hl, _, hnot, hfalse⟩ := Trail.status_eq_unit hs hunit
  obtain ⟨lines, hlines⟩ := Builder.exists_antecedents fun m hm hne => by
    rw [← h.trail]
    exact hfalse m hm hne
  refine ⟨_, Builder.replayAll_one (Builder.replay_propagation hc hlines), h.cases, ?_⟩
  intro full hfull
  obtain ⟨k, hk⟩ := h.follows full (Checker.prefix_of_cons hfull)
  exact ⟨_, hk.derive hfull Justification.noConfusion (hk.forced hc hl hnot hlines)
    Justification.noConfusion (by rw [State.trail_force]; rfl)⟩

theorem Tracks.fail (h : Tracks clauses ⟨splits, s, false⟩ b) (hs : s.trail.InStep)
    (hc : clauses[position]? = some c) (hfalsified : s.trail.status c = .falsified) :
    ∃ b', b.replayAll clauses [.conflict position] = .ok b' ∧
      Tracks clauses ⟨splits, s.fail options position, true⟩ b' := by
  obtain ⟨hnot, hfalse⟩ := Trail.status_eq_falsified hs hfalsified
  have htrail : (s.fail options position).trail.literals = s.trail.literals := by
    rw [State.trail_fail]
  cases hcons : c.literals with
  | nil =>
      refine ⟨_, Builder.replayAll_one (Builder.replay_conflict_empty hc hcons), h.cases, ?_⟩
      intro full hfull
      obtain ⟨k, hk⟩ := h.follows full (Checker.prefix_of_cons hfull)
      exact ⟨_, hk.conclude hfull Justification.noConfusion
        (Checker.justify_emptyClause (hk.clause hc) hcons) htrail⟩
  | cons first others =>
      have hfirst : first ∈ c.literals := hcons ▸ List.mem_cons_self
      obtain ⟨lines, hlines⟩ := Builder.exists_antecedents fun m hm _ => by
        rw [← h.trail]
        exact hfalse m hm
      obtain ⟨negative, hnegative⟩ := Builder.exists_lineOf (b := b) (l := first.negate) (by
        rw [← h.trail]
        exact hfalse first hfirst)
      refine ⟨_, Builder.replayAll_one (Builder.replay_conflict hc hcons hlines hnegative), h.cases,
        ?_⟩
      intro full hfull
      have hfull' := Checker.prefix_of_cons hfull
      obtain ⟨k, hk⟩ := h.follows full (Checker.prefix_of_cons hfull')
      -- One more literal is forced, against one that is derived.
      have hpushed := hk.push hfull' Justification.noConfusion (hk.forced hc hfirst hnot hlines)
      have hnext := hk.reads.next hfull'
      refine ⟨_, hpushed.conclude hfull Justification.noConfusion
        (Checker.justify_contradiction (l := first) ?_ ?_) htrail⟩
      · refine Checker.citedLiteral_eq (Nat.lt_succ_self _) ?_ ?_ hnext rfl
        · exact Checker.isVisible_iff.mpr ⟨_, List.mem_cons_self, List.mem_cons_self⟩
        · intro hn
          obtain ⟨t, ht, hpure⟩ := hpushed.reads.uncitable hn
          rw [hnext] at ht
          cases ht
          cases hpure
      · exact hpushed.literal hnegative (List.mem_of_getElem? hc)
          (by rw [Literal.negate_negate]; exact hfirst) hnot

theorem Tracks.pure (h : Tracks clauses ⟨splits, s, false⟩ b)
    (hidle : ∀ c ∈ clauses, l.negate ∈ c.literals → ∃ m ∈ c.literals, m ∈ s.trail.literals) :
    ∃ b', b.replayAll clauses [.pureLiteral l splits.length] = .ok b' ∧
      Tracks clauses ⟨splits, s.assignPure options splits.length l, false⟩ b' := by
  refine ⟨_, Builder.replayAll_one rfl, h.cases, ?_⟩
  intro full hfull
  obtain ⟨k, hk⟩ := h.follows full (Checker.prefix_of_cons hfull)
  exact ⟨_, hk.derive hfull Justification.noConfusion Checker.justify_pureLiteral (fun _ => hidle)
    (by rw [State.trail_assignPure]; rfl)⟩

theorem Tracks.decide (h : Tracks clauses ⟨splits, s, false⟩ b) (level : Nat) :
    ∃ b', b.replayAll clauses [.decision l level] = .ok b' ∧
      Tracks clauses
        ⟨⟨l, s.trail.length, false⟩ :: splits, s.decide options l level, false⟩ b' := by
  refine ⟨_, Builder.replayAll_one (Builder.replay_decision level), rfl, ?_⟩
  intro full hfull
  obtain ⟨k, hk⟩ := h.follows full (Checker.prefix_of_cons hfull)
  exact ⟨_, hk.open ⟨l, s.trail.length, false⟩ hfull rfl h.cases
    (by rw [State.trail_decide]; rfl)⟩

theorem Tracks.retry {split : Split} (h : Tracks clauses ⟨split :: splits, s, true⟩ b)
    (hfirst : split.negated = false) (level : Nat) :
    ∃ b', b.replayAll clauses
        [.backtrack level, .decision split.literal.negate (level + 1)] = .ok b' ∧
      Tracks clauses ⟨{ split with negated := true } :: splits,
        (s.back options split level).decide options split.literal.negate (level + 1),
        false⟩ b' := by
  obtain ⟨_, hk⟩ := h.follows _ (List.prefix_refl _)
  obtain ⟨parent, outer, first, houter, hassumption, hbottom⟩ := hk.exists_case
  refine ⟨_, Builder.replayAll_two (Builder.replay_backtrack houter hassumption hbottom level)
    (Builder.replay_decision (level + 1)), rfl, ?_⟩
  intro full hfull
  obtain ⟨k, hk⟩ := h.follows full (Checker.prefix_of_cons hfull)
  obtain ⟨hclosed, hmark, hended, hkept⟩ :=
    hk.close (s.back options split level) houter hassumption (by rw [State.trail_back])
  have hnone : parent.cases = [] := by
    unfold Kept at hkept
    rw [hfirst] at hkept
    exact hkept
  have hliteral : split.chosen = split.literal := by
    rw [Split.chosen, hfirst]
    rfl
  rw [hliteral] at hended
  refine ⟨_, hclosed.open { split with negated := true } hfull hmark ?_
    (by rw [State.trail_decide]; rfl)⟩
  exact ⟨_, congrArg (· ++ [(first, b.count)]) hnone, hended⟩

theorem Tracks.exhaust {split : Split} (h : Tracks clauses ⟨split :: splits, s, true⟩ b)
    (hsecond : split.negated = true) (level : Nat) :
    ∃ b', b.replayAll clauses [.backtrack level, .exhausted split.literal.var level] = .ok b' ∧
      Tracks clauses ⟨splits,
        (s.back options split level).log options (.exhausted split.literal.var level),
        true⟩ b' := by
  obtain ⟨_, hk⟩ := h.follows _ (List.prefix_refl _)
  obtain ⟨parent, outer, first, houter, hassumption, hbottom⟩ := hk.exists_case
  refine ⟨_, Builder.replayAll_two (Builder.replay_backtrack houter hassumption hbottom level) rfl,
    rfl, ?_⟩
  intro full hfull
  obtain ⟨k, hk⟩ := h.follows full (Checker.prefix_of_cons hfull)
  obtain ⟨hclosed, _, hended, hkept⟩ :=
    hk.close (s.back options split level) houter hassumption (by rw [State.trail_back])
  have hdepth : k.pop.depth = outer.length := hclosed.reads.depth
  unfold Kept at hkept
  rw [if_pos hsecond] at hkept
  obtain ⟨case, hcases, hended'⟩ := hkept
  have hchosen : split.chosen = split.literal.negate := by rw [Split.chosen, if_pos hsecond]
  rw [hchosen] at hended
  refine ⟨_, (hclosed.frame []).conclude hfull Justification.noConfusion ?_
    (by rw [State.trail_log])⟩
  obtain ⟨t, ht, hfalse⟩ := hended.bottom
  obtain ⟨u, hu, hliteral⟩ := hended.hypothesis
  obtain ⟨t', ht', hfalse'⟩ := hended'.bottom
  obtain ⟨u', hu', hliteral'⟩ := hended'.hypothesis
  have hboth : (b.closed parent outer first).frame.cases = [case, (first, b.count)] :=
    congrArg (· ++ [(first, b.count)]) hcases
  rw [hboth]
  exact Checker.justify_caseAnalysis
    (Checker.hypothesis_eq hended'.isClosed hended'.opened ht' hfalse' hu' hliteral')
    (Checker.hypothesis_eq hended.isClosed hended.opened ht hfalse hu hliteral)

/-- The position of a clause in the list that is searched. -/
theorem getElem?_of_mem_zipIdx {e : Clause × Nat} (h : e ∈ clauses.zipIdx) :
    clauses[e.2]? = some e.1 :=
  List.mk_mem_zipIdx_iff_getElem?.mp h

/-- What one move logs is replayed, and the machines stay together. -/
theorem Tracks.move {config config' : Config} (hlogged : options.logged = true)
    (hmove : Move options clauses.zipIdx config config')
    (hfits : Fits clauses.zipIdx config.state.trail) (h : Tracks clauses config b) :
    ∃ events b', config'.state.events = events.reverse ++ config.state.events ∧
      b.replayAll clauses events = .ok b' ∧ Tracks clauses config' b' := by
  cases hmove with
  | @force _ s e l hc hunit =>
      obtain ⟨b', hb', h'⟩ := h.force hfits.inStep (getElem?_of_mem_zipIdx hc) hunit
      exact ⟨[.propagation l e.2], b', State.events_force hlogged s l e.2, hb', h'⟩
  | @fail _ s e hc hfalsified =>
      obtain ⟨b', hb', h'⟩ := h.fail hfits.inStep (getElem?_of_mem_zipIdx hc) hfalsified
      exact ⟨[.conflict e.2], b', State.events_fail hlogged s e.2, hb', h'⟩
  | @pure splits s l _ _ hneg =>
      obtain ⟨b', hb', h'⟩ := h.pure fun c hc hmem => by
        obtain ⟨position, hat⟩ := List.getElem?_of_mem hc
        exact (Trail.satisfies_iff hfits.inStep).mp
          (hneg (c, position) (List.mk_mem_zipIdx_iff_getElem?.mpr hat) hmem)
      exact ⟨[.pureLiteral l splits.length], b',
        State.events_assignPure hlogged s l splits.length, hb', h'⟩
  | @decide splits s l _ _ =>
      obtain ⟨b', hb', h'⟩ := h.decide (splits.length + 1)
      exact ⟨[.decision l (splits.length + 1)], b',
        State.events_decide hlogged s l (splits.length + 1), hb', h'⟩
  | @retry split outer s hfirst =>
      obtain ⟨b', hb', h'⟩ := h.retry hfirst outer.length
      refine ⟨_, b', ?_, hb', h'⟩
      rw [State.events_decide hlogged, State.events_back hlogged]
      rfl
  | @exhaust split outer s hsecond =>
      obtain ⟨b', hb', h'⟩ := h.exhaust hsecond outer.length
      refine ⟨_, b', ?_, hb', h'⟩
      rw [State.events_log hlogged, State.events_back hlogged]
      rfl

/-- Whatever a search does, its log is replayed, and the machines stay together. -/
theorem tracks_of_moves {start config : Config} (hlogged : options.logged = true)
    (hmoves : Moves options clauses.zipIdx start config) (hvalid : start.Valid clauses.zipIdx)
    (hstart : start.state.events = []) (h : Tracks clauses start b) :
    ∃ b', b.replayAll clauses config.state.events.reverse = .ok b' ∧ Tracks clauses config b' := by
  induction hmoves with
  | refl =>
      rw [hstart]
      exact ⟨b, rfl, h⟩
  | tail hmoves hmove ih =>
      obtain ⟨b', hb', h'⟩ := ih
      obtain ⟨events, b'', hevents, hb'', h''⟩ :=
        h'.move hlogged hmove (Moves.valid hmoves hvalid).fits
      refine ⟨b'', ?_, h''⟩
      rw [hevents, List.reverse_append, List.reverse_reverse]
      exact Builder.replayAll_append hb' hb''

/-- When no case is left and the search has failed, the derivation is complete and accepted. -/
theorem Tracks.check {config : Config} (h : Tracks clauses config b) (hsplits : config.splits = [])
    (hfailed : config.failed = true) :
    b.finish = .ok ⟨b.steps.reverse⟩ ∧ Derivation.check ⟨b.steps.reverse⟩ = .ok () := by
  obtain ⟨k, hk⟩ := h.follows _ (List.prefix_refl _)
  obtain ⟨hbottom, hhead, t, ht, hfalse⟩ := hk.failed hfailed
  have houter : b.outer = [] := by
    have hframed := hk.framed
    rw [hsplits] at hframed
    generalize b.outer = outer at hframed ⊢
    generalize k.stack = scopes at hframed
    cases hframed
    rfl
  have hdepth : t.depth = 0 := by
    obtain ⟨_, _, ⟨u, hu, hdepth⟩, _⟩ :=
      hk.reads.placed.lines k.scope k.outer (List.suffix_refl _) b.count (List.mem_of_head? hhead)
    cases ht.symm.trans hu
    rw [hdepth]
    exact hk.reads.depth.trans (congrArg List.length houter)
  have hlast : b.steps.reverse.getLast? = some t := by
    have hpos := Checker.step?_lt ht
    rw [Checker.step?, if_neg (by omega), hk.reads.count] at ht
    rw [List.getLast?_eq_getElem?, List.length_reverse]
    exact ht
  refine ⟨if_pos ⟨houter, by rw [hbottom]; rfl⟩, ?_⟩
  obtain ⟨k', hchecked, _⟩ := hk.reads.reached
  refine bind_eq_ok.mpr ⟨(), ?_, if_pos ?_⟩
  · have hall := hchecked.checkFrom []
    rw [List.append_nil] at hall
    exact hall
  · rw [hlast, Option.any_some, Step.isConclusion, hdepth, hfalse]
    rfl

end

end Elenchus
