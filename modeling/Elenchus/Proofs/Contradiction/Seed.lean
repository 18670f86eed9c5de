import Elenchus.Proofs.Contradiction.Core

/-!
# Where the shrinking starts

The propositions of a refutation are unsatisfiable by themselves, so shrinking always starts with
them (`seed_suffices`).  That it would start with all members if they were satisfiable is a caution
that is never needed.

Two numberings meet here.  The search numbers the clauses it is given, which are those of the
members; the encoding numbers all of its clauses.  What joins them is that a clause of the
refutation has, by definition, only tags that the refutation names: it is kept, with whatever
number, when the encoding is restricted to these (`not_consistent_refuted`).  And the clauses that a
refutation lists have no model among them, although the search also made literals true that rest on
no clause.
-/

namespace Elenchus.Encoding

variable {e : Encoding} {members refutation : List Nat} {before : Budget}

/-- The propositions of a refutation are inconsistent. -/
theorem not_consistent_refuted
    (h : (e.solveMembers members before).outcome = .unsatisfiable refutation) :
    ¬e.Consistent (e.refuted refutation (e.solveMembers members before).positions) := by
  rintro ⟨a, ha⟩
  rw [satisfies_restrict] at ha
  refine Search.not_satisfiesAt_of_solve h a ?_
  rintro ⟨c, i⟩ hc hi
  obtain ⟨⟨c', position⟩, hkept, rfl⟩ := Option.map_eq_some_iff.mp
    ((List.getElem?_map ..).symm.trans (List.mk_mem_zipIdx_iff_getElem?.mp hc))
  obtain ⟨t, hat, _, rfl⟩ := mem_restrict.mp (List.mem_of_getElem? hkept)
  refine ha t (List.mem_of_getElem? hat) fun tag htag => ?_
  have hposition : (e.solveMembers members before).positions[i]? = some position := by
    show ((e.restrict members).map (·.2))[i]? = some position
    rw [List.getElem?_map, hkept]
    rfl
  exact mem_refuted.mpr ⟨i, hi, position, hposition, t, hat, htag⟩

/-- The propositions of a refutation are some of the members, no search finds a model of what they
say by themselves, and they are what shrinking starts with, unless the budget refuses the search. -/
theorem seed_suffices (arg : Argument) (options : EncodingOptions) (members : List Nat)
    (before : Budget) (refutation : List Nat)
    (h : ((arg.encode options).solveMembers members before).outcome = .unsatisfiable refutation)
    (budget : Budget) :
    let e := arg.encode options
    let positions := (e.solveMembers members before).positions
    let named := e.refuted refutation positions
    named ≠ [] ∧ named ⊆ members ∧
      (∀ model, (e.solveMembers named budget).outcome ≠ .satisfiable model) ∧
      e.seed members refutation positions budget =
        if named = members then (.ok named, budget)
        else
          match (e.solveMembers named budget).outcome with
          | .unknown reason => (.error reason, (e.solveMembers named budget).budget)
          | _ => (.ok named, (e.solveMembers named budget).budget) := by
  intro e positions named
  have hbad : ¬e.Consistent named := not_consistent_refuted h
  have hne : named ≠ [] := by
    intro hnil
    rw [hnil] at hbad
    exact hbad (arg.wellTagged_encode options).consistent_nil
  have hunsat (model : List Bool) : (e.solveMembers named budget).outcome ≠ .satisfiable model := by
    intro hmodel
    have hsolve := e.solveMembers_spec named budget
    rw [hmodel] at hsolve
    exact hbad hsolve.1
  refine ⟨hne, e.refuted_subset members refutation, hunsat, ?_⟩
  have hseed : e.seed members refutation positions budget =
      if named = [] ∨ named = members then (.ok members, budget) else _ := rfl
  by_cases hall : named = members
  · rw [hseed, if_pos (Or.inr hall), if_pos hall, hall]
  · rw [hseed, if_neg (not_or.mpr ⟨hne, hall⟩), if_neg hall]
    cases houtcome : (e.solveMembers named budget).outcome with
    | satisfiable model => exact absurd houtcome (hunsat model)
    | unsatisfiable _ => rfl
    | unknown _ => rfl

/-- Two statements that contradict each other, and a third one that is only looked at. -/
def bystander : Argument where
  propositions :=
    [⟨⟨"a"⟩, "a", none, .claim, .medium, false, false⟩,
      ⟨⟨"b"⟩, "b", none, .claim, .medium, false, false⟩,
      ⟨⟨"c"⟩, "c", some "p | q", .claim, .medium, false, false⟩]
  relationships := [⟨⟨"ab"⟩, ⟨"a"⟩, ⟨"b"⟩, .contradicts, .strong, none⟩]

/-- The reader and the set of clauses already met are opened by their equations, all else is
computed. -/
theorem encode_bystander :
    bystander.encode {} =
      { table :=
          ⟨#[.proposition ⟨"a"⟩, .proposition ⟨"b"⟩, .proposition ⟨"c"⟩, .atom "p", .atom "q"]⟩
        clauses :=
          [⟨.ofList [⟨0, true⟩], [0], .asserted, "\"a\" asserted"⟩,
            ⟨.ofList [⟨1, true⟩], [1], .asserted, "\"b\" asserted"⟩,
            ⟨.ofList [⟨3, true⟩, ⟨4, true⟩], [2], .expression, "p | q"⟩,
            ⟨.ofList [⟨2, false⟩, ⟨3, true⟩, ⟨4, true⟩], [2], .definition, "[c] ↔ p ∨ q"⟩,
            ⟨.ofList [⟨2, true⟩, ⟨3, false⟩], [2], .definition, "[c] ↔ p ∨ q"⟩,
            ⟨.ofList [⟨2, true⟩, ⟨4, false⟩], [2], .definition, "[c] ↔ p ∨ q"⟩,
            ⟨.ofList [⟨0, false⟩, ⟨1, false⟩], [0, 1], .relationship 0, "a contradicts b"⟩]
        failures := []
        propositions := 3 } := by
  have htokens : tokenize "p | q".toList =
      .ok ⟨[⟨.name "p", 0, 1⟩, ⟨.connective .or, 2, 3⟩, ⟨.name "q", 4, 5⟩], 5⟩ := rfl
  have hparse : Formula.parse "p | q" = .ok (.binary .or (.atom "p") (.atom "q")) := by
    rw [Formula.parse, htokens]
    simp [Formula.ofTokens, Reading.chain, Reading.operand, Reading.negation, Reading.primary,
      Reading.atom, Reading.term, Reading.links, Reading.joined, Formula.height, maxNesting, bind,
      Except.bind, pure, Except.pure]
  simp only [Argument.encode, bystander, encodePropositions, Proposition.encode, stateExpression,
    hparse, Formula.state, Formula.clauses, Formula.clausesOf, Formula.definition, Normal.clauses,
    distinct_eq_eraseDups]
  decide +kernel

/-- The refutation does not name the third statement, and shrinking starts with the other two. -/
theorem seed_bystander :
    ((bystander.encode {}).solveMembers [0, 1, 2] .unlimited).outcome =
        .unsatisfiable [0, 1, 6] ∧
      (bystander.encode {}).refuted [0, 1, 6]
        ((bystander.encode {}).solveMembers [0, 1, 2] .unlimited).positions = [0, 1] ∧
      ((bystander.encode {}).seed [0, 1, 2] [0, 1, 6]
        ((bystander.encode {}).solveMembers [0, 1, 2] .unlimited).positions .unlimited).1.toOption =
          some [0, 1] := by
  have houtcome : ((bystander.encode {}).solveMembers [0, 1, 2] .unlimited).outcome =
      .unsatisfiable [0, 1, 6] := by
    rw [encode_bystander]
    decide +kernel
  have hnamed : (bystander.encode {}).refuted [0, 1, 6]
      ((bystander.encode {}).solveMembers [0, 1, 2] .unlimited).positions = [0, 1] := by
    rw [encode_bystander]
    decide +kernel
  have hagain : ((bystander.encode {}).solveMembers [0, 1] .unlimited).outcome =
      .unsatisfiable [0, 1, 2] := by
    rw [encode_bystander]
    decide +kernel
  obtain ⟨_, _, _, hseed⟩ :=
    seed_suffices bystander {} [0, 1, 2] .unlimited [0, 1, 6] houtcome .unlimited
  refine ⟨houtcome, hnamed, ?_⟩
  rw [hseed, hnamed, if_neg (by decide), hagain]
  rfl

end Elenchus.Encoding
