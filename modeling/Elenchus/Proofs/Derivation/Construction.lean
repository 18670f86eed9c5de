import Elenchus.Proofs.Derivation.Simulation
import Mathlib.Data.List.Induction

/-!
# Every refutation becomes a derivation

`construct_spec` is the contract of the construction: it fails exactly when the search finds a model
or is stopped, and whatever else it returns is accepted by the checker, begins with the given
clauses in their order, and gives no others.

The simulation starts when the premises are written (`tracks_given`).  What is written after them is
written by the replay, and that no premise is among it is a matter of the replay alone
(`Builder.replay_steps`).
-/

namespace Elenchus

open Search

/-- Whether a step is given. -/
def Step.IsPremise (s : Step) : Prop :=
  ∃ propositions source, s.justification = .premise propositions source

/-! ## The premises -/

/-- The step that gives a clause. -/
def premiseStep (premise : Clause × Justification) : Step := ⟨0, .clause premise.1, premise.2⟩

/-- The builder after the premises are written. -/
def Builder.given (premises : List (Clause × Justification)) : Builder :=
  premises.foldl (fun b (c, why) => b.push (.clause c) why) Builder.start

theorem Builder.given_append (premises : List (Clause × Justification))
    (premise : Clause × Justification) :
    Builder.given (premises ++ [premise]) =
      (Builder.given premises).push (.clause premise.1) premise.2 := by
  rw [Builder.given, List.foldl_append]
  rfl

theorem Builder.given_eq (premises : List (Clause × Justification)) :
    Builder.given premises = ⟨(premises.map premiseStep).reverse, premises.length, {}, []⟩ := by
  induction premises using List.reverseRecOn with
  | nil => rfl
  | append_singleton premises premise ih =>
      rw [Builder.given_append, ih, List.map_append, List.reverse_append, List.length_append]
      rfl

/-- The checker accepts the premises, and keeps them in the outermost scope. -/
theorem reads_given {full : List Step} (premises : List (Clause × Justification))
    (hwhy : ∀ premise ∈ premises, (premiseStep premise).IsPremise)
    (hfull : (Builder.given premises).steps.reverse <+: full) :
    ∃ k lines, (Builder.given premises).Reads full k ∧ k.stack = [lines] ∧
      ∀ i < premises.length, i + 1 ∈ lines := by
  induction premises using List.reverseRecOn with
  | nil =>
      exact ⟨.start, [], ⟨rfl, hfull, _, .start, Nat.le_refl _, rfl⟩, rfl,
        fun _ hi => absurd hi (Nat.not_lt_zero _)⟩
  | append_singleton premises premise ih =>
      rw [Builder.given_append] at hfull ⊢
      obtain ⟨k, lines, hreads, hstack, hlines⟩ :=
        ih (fun p hp => hwhy p (List.mem_append_left _ hp)) (Checker.prefix_of_cons hfull)
      obtain ⟨propositions, source, hpremise⟩ :=
        hwhy premise (List.mem_append_right _ (List.mem_singleton_self _))
      change premise.2 = _ at hpremise
      have hbuilder := Builder.given_eq premises
      have hdepth : (Builder.given premises).outer.length = 0 := by rw [hbuilder]; rfl
      have hcount : (Builder.given premises).count = premises.length := by rw [hbuilder]
      refine ⟨_, (premises.length + 1) :: lines,
        hreads.push hfull (by rw [hpremise]; exact Justification.noConfusion) ?_, ?_, ?_⟩
      · rw [hdepth, hpremise]
        exact Checker.justify_premise
      · obtain ⟨hscope, houter⟩ := List.cons.inj hstack
        rw [← hcount, ← hscope, ← houter]
        rfl
      · intro i hi
        rw [List.length_append, List.length_singleton] at hi
        rcases Nat.eq_or_lt_of_le (Nat.le_of_lt_succ hi) with rfl | hlt
        · exact List.mem_cons_self
        · exact List.mem_cons_of_mem _ (hlines i hlt)

/-- The search and the derivation start together. -/
theorem tracks_given (size : Nat) (premises : List (Clause × Justification))
    (hwhy : ∀ premise ∈ premises, (premiseStep premise).IsPremise) :
    Tracks (premises.map (·.1)) (.start size (premises.map (·.1))) (Builder.given premises) := by
  have hbuilder := Builder.given_eq premises
  refine ⟨by rw [hbuilder], ?_⟩
  intro full hfull
  obtain ⟨k, lines, hreads, hstack, hlines⟩ := reads_given premises hwhy hfull
  have hframe : (Builder.given premises).frame = {} := by rw [hbuilder]
  have houter : (Builder.given premises).outer = [] := by rw [hbuilder]
  refine ⟨k, hreads, ?_, ?_, ?_,
    fun h => absurd h Bool.false_ne_true⟩
  · rw [hstack, hframe, houter]
    exact .outermost (List.forall_mem_nil _) fun i hi => hlines i (by rwa [List.length_map] at hi)
  · rw [hframe, houter]
    rfl
  · intro i c hc
    rw [List.getElem?_map] at hc
    obtain ⟨premise, hpremise, rfl⟩ := Option.map_eq_some_iff.mp hc
    obtain ⟨propositions, source, hwhy⟩ := hwhy premise (List.mem_of_getElem? hpremise)
    refine ⟨propositions, source, ?_⟩
    rw [hbuilder, List.reverse_reverse] at hfull
    have hlt : i < (premises.map premiseStep).length := by
      rw [List.length_map]
      exact (List.getElem?_eq_some_iff.mp hpremise).1
    rw [Checker.step?, if_neg (Nat.succ_ne_zero _), Nat.add_sub_cancel,
      List.prefix_iff_getElem?.mp hfull i hlt, List.getElem_map,
      (List.getElem?_eq_some_iff.mp hpremise).2, ← hwhy]
    rfl

/-! ## What is written after the premises -/

section
variable {clauses : List Clause} {b b' : Builder}

/-- What is written goes on from what was written, and no premise is among it. -/
def Builder.Extends (b b' : Builder) : Prop :=
  ∃ later, b'.steps = later ++ b.steps ∧ ∀ s ∈ later, ¬s.IsPremise

theorem Builder.Extends.refl (b : Builder) : b.Extends b :=
  ⟨[], rfl, List.forall_mem_nil _⟩

theorem Builder.Extends.trans {b'' : Builder} (h : b.Extends b') (h' : b'.Extends b'') :
    b.Extends b'' := by
  obtain ⟨later, hsteps, hlater⟩ := h
  obtain ⟨later', hsteps', hlater'⟩ := h'
  refine ⟨later' ++ later, by rw [hsteps', hsteps, List.append_assoc], ?_⟩
  intro s hs
  rcases List.mem_append.mp hs with hs | hs
  · exact hlater' s hs
  · exact hlater s hs

/-- One step that is no premise. -/
theorem Builder.Extends.step {s : Step} (hsteps : b'.steps = s :: b.steps)
    (hs : ∀ propositions source, s.justification ≠ .premise propositions source) :
    b.Extends b' := by
  refine ⟨[s], hsteps, ?_⟩
  intro t ht
  rintro ⟨propositions, source, hpremise⟩
  rw [List.mem_singleton.mp ht] at hpremise
  exact hs propositions source hpremise

/-- The replay of an event writes no premise. -/
theorem Builder.replay_steps {event : Event} (h : b.replay clauses event = .ok b') :
    b.Extends b' := by
  cases event with
  | decision l level =>
      cases h
      exact .step rfl fun _ _ => Justification.noConfusion
  | propagation l position =>
      obtain ⟨c, _, h⟩ := bind_eq_ok.mp h
      obtain ⟨lines, _, h⟩ := bind_eq_ok.mp h
      cases h
      exact .step rfl fun _ _ => Justification.noConfusion
  | pureLiteral l level =>
      cases h
      exact .step rfl fun _ _ => Justification.noConfusion
  | conflict position =>
      obtain ⟨c, _, h⟩ := bind_eq_ok.mp h
      split at h
      · cases h
        exact .step rfl fun _ _ => Justification.noConfusion
      · rename_i first others _
        obtain ⟨lines, _, h⟩ := bind_eq_ok.mp h
        obtain ⟨negative, _, h⟩ := bind_eq_ok.mp h
        cases h
        have hpushed : b.Extends (b.push (.literal first) (.unitResolution (position + 1) lines)) :=
          .step rfl fun _ _ => Justification.noConfusion
        exact hpushed.trans (.step rfl fun _ _ => Justification.noConfusion)
  | backtrack level =>
      simp only [Builder.replay] at h
      split at h
      · cases h
      · split at h
        · cases h
          exact ⟨[], rfl, List.forall_mem_nil _⟩
        · cases h
  | exhausted v level =>
      cases h
      exact .step rfl fun _ _ => Justification.noConfusion

theorem Builder.replayAll_steps {events : List Event} (h : b.replayAll clauses events = .ok b') :
    b.Extends b' := by
  induction events generalizing b with
  | nil =>
      cases h
      exact .refl _
  | cons event events ih =>
      obtain ⟨next, hnext, h⟩ := bind_eq_ok.mp h
      exact (replay_steps hnext).trans (ih h)

end

/-! ## Construction -/

/-- The log of a failed search gives a derivation that is accepted: the premises, and then steps
that are none. -/
theorem ofLog_of_unsatisfiable {size : Nat} {premises : List (Clause × Justification)}
    {budget : Budget} {refutation : List Nat}
    (hwhy : ∀ premise ∈ premises, (premiseStep premise).IsPremise)
    (h : (solve ⟨true, true⟩ size (premises.map (·.1)) budget).outcome =
      .unsatisfiable refutation) :
    ∃ later, Derivation.ofLog premises (solve ⟨true, true⟩ size (premises.map (·.1)) budget).trace =
        .ok ⟨premises.map premiseStep ++ later⟩ ∧
      Derivation.check ⟨premises.map premiseStep ++ later⟩ = .ok () ∧
      ∀ s ∈ later, ¬s.IsPremise := by
  obtain ⟨config, hmoves, _, hends, htrace, _⟩ :=
    solve_ends ⟨true, true⟩ size (premises.map (·.1)) budget
  obtain ⟨b, hb, htracks⟩ :=
    tracks_of_moves rfl hmoves (valid_start size _) rfl (tracks_given size premises hwhy)
  rw [h] at hends
  cases hends with
  | refuted hfailed hsplits =>
      obtain ⟨hfinish, hcheck⟩ := htracks.check hsplits hfailed
      obtain ⟨later, hsteps, hlater⟩ := Builder.replayAll_steps hb
      have hreverse : b.steps.reverse = premises.map premiseStep ++ later.reverse := by
        rw [hsteps, Builder.given_eq, List.reverse_append, List.reverse_reverse]
      rw [hreverse] at hfinish hcheck
      refine ⟨later.reverse, ?_, hcheck, fun s hs => hlater s (List.mem_reverse.mp hs)⟩
      rw [htrace]
      exact bind_eq_ok.mpr ⟨b, hb, hfinish⟩

/-- The premises are the clauses of the restriction. -/
theorem Encoding.map_premises (e : Encoding) (arg : Argument) (members : List Nat) :
    (e.premises arg members).map (·.1) = (e.restrict members).map (·.1) := by
  have hfilter : (e.clauses.zipIdx.filter fun c => c.1.tags.all (· ∈ members)).map Prod.fst =
      e.clauses.filter fun c => c.tags.all (· ∈ members) := by
    conv_rhs => rw [← List.zipIdx_map_fst 0 e.clauses, List.filter_map]
    rfl
  rw [Encoding.premises, Encoding.restrict, List.map_map, List.map_map, ← hfilter, List.map_map]
  rfl

theorem Encoding.isPremise_premises (e : Encoding) {arg : Argument} {members : List Nat} :
    ∀ premise ∈ e.premises arg members, (premiseStep premise).IsPremise := by
  intro premise hpremise
  obtain ⟨c, _, rfl⟩ := List.mem_map.mp hpremise
  exact ⟨_, _, rfl⟩

/-- The answer of the construction is that of the search, with a derivation in place of a
refutation. -/
theorem Derivation.construct_eq (e : Encoding) (arg : Argument) (members : List Nat)
    (budget : Budget) :
    (Derivation.construct e arg members budget).1 =
      match (solve ⟨true, true⟩ e.table.size ((e.premises arg members).map (·.1))
        budget).outcome with
      | .satisfiable _ => .error .satisfiable
      | .unknown reason => .error (.exhausted reason)
      | .unsatisfiable _ =>
        (Derivation.ofLog (e.premises arg members) (solve ⟨true, true⟩ e.table.size
          ((e.premises arg members).map (·.1)) budget).trace).mapError .replay := by
  unfold Derivation.construct
  dsimp only
  generalize solve ⟨true, true⟩ e.table.size ((e.premises arg members).map (·.1)) budget = result
  obtain ⟨outcome, trace, rest⟩ := result
  cases outcome <;> rfl

/-- The construction fails exactly when the search has a model or is stopped.  Any derivation that
it returns is accepted, gives the clauses of the restriction first and in order, and no others. -/
theorem Derivation.construct_spec (e : Encoding) (arg : Argument) (members : List Nat)
    (budget : Budget) :
    let given := (e.restrict members).map (·.1)
    let outcome := (solve ⟨true, true⟩ e.table.size given budget).outcome
    let answer := (Derivation.construct e arg members budget).1
    (answer = .error .satisfiable ↔ ∃ model, outcome = .satisfiable model) ∧
    (∀ reason, answer = .error (.exhausted reason) ↔ outcome = .unknown reason) ∧
    (∀ error, answer = .error error → error = .satisfiable ∨ ∃ reason, error = .exhausted reason) ∧
    ∀ d, answer = .ok d → d.check = .ok () ∧
      (d.steps.take given.length).map Step.statement = given.map .clause ∧
      (∀ s ∈ d.steps.take given.length, s.depth = 0 ∧ s.IsPremise) ∧
      ∀ s ∈ d.steps.drop given.length, ¬s.IsPremise := by
  intro given outcome answer
  have hgiven : (e.premises arg members).map (·.1) = given := e.map_premises arg members
  have hanswer : answer = _ := Derivation.construct_eq e arg members budget
  have hsearch : (solve ⟨true, true⟩ e.table.size ((e.premises arg members).map (·.1))
      budget).outcome = outcome := by rw [hgiven]
  cases houtcome : outcome with
  | satisfiable model =>
      rw [hsearch, houtcome] at hanswer
      simp [hanswer]
  | unknown reason =>
      rw [hsearch, houtcome] at hanswer
      simp [hanswer]
  | unsatisfiable refutation =>
      obtain ⟨later, hlog, hcheck, hlater⟩ :=
        ofLog_of_unsatisfiable e.isPremise_premises (hsearch.trans houtcome)
      rw [hsearch, houtcome, hlog] at hanswer
      have hlength : given.length = ((e.premises arg members).map premiseStep).length := by
        rw [← hgiven, List.length_map, List.length_map]
      refine ⟨by simp [hanswer, Except.mapError], by simp [hanswer, Except.mapError],
        by simp [hanswer, Except.mapError], ?_⟩
      intro d hd
      rw [hanswer] at hd
      cases hd
      rw [hlength, List.take_left, List.drop_left]
      refine ⟨hcheck, ?_, ?_, hlater⟩
      · rw [← hgiven, List.map_map, List.map_map]
        rfl
      · intro s hs
        obtain ⟨premise, hpremise, rfl⟩ := List.mem_map.mp hs
        exact ⟨rfl, e.isPremise_premises premise hpremise⟩

end Elenchus
