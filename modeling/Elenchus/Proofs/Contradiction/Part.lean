import Mathlib.Data.List.Nodup
import Mathlib.Data.List.Sort
import Elenchus.Proofs.Argument.Stability
import Elenchus.Proofs.Contradiction.Bound
import Elenchus.Proofs.Encoding.Members

/-!
# A core stands on its own

The propositions of a core and the relationships between them make an argument, and in that argument
the search finds one core, which is all of it (`Request.findContradictions_part`).

The smaller argument has an encoding of its own, with other variables and other clauses.  What ties
it to the larger one is what propositions say by themselves: propositions of a part are consistent
in the part if and only if they are in the whole.  So a core is inconsistent in its part too, and
nothing less than all of the part is.
-/

namespace Elenchus

/-! ## Parts of an argument -/

namespace Argument

/-- The given propositions and the relationships between them. -/
def kept (arg : Argument) (members : List Nat) : Argument where
  propositions := arg.chosen members
  relationships := arg.relationships.filter fun r =>
    r.fromId ∈ (arg.chosen members).map (·.id) ∧ r.toId ∈ (arg.chosen members).map (·.id)

/-- The argument that is made of the given propositions and the relationships between them. -/
def part (arg : Argument) (members : List Nat) : Argument × List Warning :=
  Argument.ofParts (arg.kept members).propositions (arg.kept members).relationships

variable {arg : Argument} {options : EncodingOptions} {members core others outer : List Nat}

theorem Settled.kept (h : arg.Settled) (members : List Nat) : (arg.kept members).Settled := by
  have hsub := arg.chosen_sublist members
  refine ⟨fun p hp => h.propositions p (hsub.subset hp), fun r hr => ?_, ?_, fun r hr => ?_⟩
  · exact h.relationships r (List.mem_filter.mp hr).1
  · exact h.distinct.sublist (hsub.map _)
  · exact of_decide_eq_true (List.mem_filter.mp hr).2

/-- A part of a settled argument is taken over as it is. -/
theorem Settled.part_eq (h : arg.Settled) (members : List Nat) :
    arg.part members = (arg.kept members, []) :=
  (h.kept members).validate_eq

/-! ## What a part says -/

/-- What is consistent in the whole is consistent in a part. -/
theorem Settled.consistent_kept (h : arg.Settled)
    (hsub : (arg.kept core).chosen others ⊆ arg.chosen outer)
    (hgood : (arg.encode options).Consistent outer) :
    ((arg.kept core).encode options).Consistent others := by
  obtain ⟨value, hvalue⟩ := (consistent_iff h.distinct outer).mp hgood
  refine (consistent_iff (h.kept core).distinct others).mpr ⟨value, hvalue.mono hsub ?_⟩
  exact fun r hr _ _ _ _ _ _ => (List.mem_filter.mp hr).1

/-- What is consistent in a part is consistent in the whole, for the relationships between the
propositions are all there. -/
theorem Settled.consistent_of_kept (h : arg.Settled)
    (hsub : arg.chosen outer ⊆ (arg.kept core).chosen others)
    (hgood : ((arg.kept core).encode options).Consistent others) :
    (arg.encode options).Consistent outer := by
  obtain ⟨value, hvalue⟩ := (consistent_iff (h.kept core).distinct others).mp hgood
  have hids : ∀ p ∈ arg.chosen outer, p.id ∈ (arg.chosen core).map (·.id) := fun p hp =>
    List.mem_map_of_mem (((arg.kept core).chosen_sublist others).subset (hsub hp))
  refine (consistent_iff h.distinct outer).mpr ⟨value, hvalue.mono hsub ?_⟩
  intro r hr p hp q hq hsource htarget
  refine List.mem_filter.mpr ⟨hr, decide_eq_true ⟨?_, ?_⟩⟩
  · exact hsource ▸ hids p hp
  · exact htarget ▸ hids q hq

/-- The positions in the whole of given propositions of a part. -/
def lifted (arg : Argument) (core others : List Nat) : List Nat :=
  core.filter fun i => ∃ p ∈ (arg.kept core).chosen others, arg.propositions[i]? = some p

theorem mem_chosen_lifted {p : Proposition} :
    p ∈ arg.chosen (arg.lifted core others) ↔ p ∈ (arg.kept core).chosen others := by
  rw [mem_chosen]
  constructor
  · rintro ⟨i, hi, hp⟩
    obtain ⟨q, hq, hat⟩ := of_decide_eq_true (List.mem_filter.mp hi).2
    cases hp.symm.trans hat
    exact hq
  · intro hp
    obtain ⟨i, hi, hat⟩ := mem_chosen.mp (((arg.kept core).chosen_sublist others).subset hp)
    exact ⟨i, List.mem_filter.mpr ⟨hi, decide_eq_true ⟨p, hp, hat⟩⟩, hat⟩

/-- Given propositions of a part are all of it if their positions in the whole are those of the
core. -/
theorem Settled.subset_of_lifted (h : arg.Settled) (hall : core ⊆ arg.lifted core others) :
    List.range (arg.kept core).size ⊆ others := by
  intro i hi
  have hlt : i < (arg.kept core).propositions.length := List.mem_range.mp hi
  have hat := List.getElem?_eq_getElem hlt
  obtain ⟨j, hj, hp⟩ := mem_chosen.mp (List.getElem_mem hlt)
  have hchosen := mem_chosen_lifted.mp (mem_chosen.mpr ⟨j, hall hj, hp⟩)
  obtain ⟨i', hi', hat'⟩ := mem_chosen.mp hchosen
  have hnodup : (arg.kept core).propositions.Nodup := List.Nodup.of_map _ (h.kept core).distinct
  cases (List.getElem?_inj hlt hnodup).mp (hat.trans hat'.symm)
  exact hi'

/-- All propositions of the part that a core makes are a core of it. -/
theorem Settled.isCore_kept (h : arg.Settled)
    (hcore : (arg.encode options).IsCore members core) :
    ((arg.kept core).encode options).IsCore (List.range (arg.kept core).size)
      (List.range (arg.kept core).size) := by
  have hbad : ¬((arg.kept core).encode options).Consistent (List.range (arg.kept core).size) :=
    fun hgood => hcore.inconsistent
      (h.consistent_of_kept (fun p hp => mem_chosen_range.mpr hp) hgood)
  refine ⟨fun hnil => hbad ?_, List.Subset.refl _, hbad, fun others hothers hproper => ?_⟩
  · rw [hnil]
    exact ((arg.kept core).wellTagged_encode options).consistent_nil
  · have hlifted := hcore.minimal (arg.lifted core others) List.filter_sublist.subset
      fun hall => hproper (h.subset_of_lifted hall)
    exact h.consistent_kept (fun p hp => mem_chosen_lifted.mpr hp) hlifted

end Argument

/-! ## The search in a part -/

namespace Encoding

/-- If all propositions together are a core, then every core is all of them. -/
theorem IsCore.eq_members {e : Encoding} (hwhole : e.IsCore e.members e.members) {core : List Nat}
    (hcore : e.IsCore e.members core) (hascending : core.Pairwise (· < ·)) : core = e.members := by
  have hall : e.members ⊆ core := by
    by_contra hproper
    exact hcore.inconsistent (hwhole.minimal core hcore.subset hproper)
  exact List.Subset.antisymm_of_pairwise hascending List.pairwise_lt_range hcore.subset hall

/-- If all propositions together are a core, then a search that is not stopped finds that core and
no other. -/
theorem IsCore.findContradictions_eq {e : Encoding} (hwell : e.WellTagged)
    (hwhole : e.IsCore e.members e.members) {budget : Budget} {limit : Nat} (hlimit : 1 ≤ limit)
    (hrunning : (e.findContradictions budget limit).1.exhausted = none) :
    (e.findContradictions budget limit).1 = ⟨.unsat, [e.members], none⟩ := by
  have hexact := hwell.exact budget limit
  have hanswer : (e.findContradictions budget limit).1.satisfiability = .unsat := by
    cases hsat : (e.findContradictions budget limit).1.satisfiability with
    | sat => exact absurd (hexact.sat hsat) hwhole.inconsistent
    | unsat => rfl
    | unknown => exact absurd hrunning (hwell.exhausted_of_unknown hsat)
  have heq : ∀ core ∈ (e.findContradictions budget limit).1.cores, core = e.members :=
    fun core hcore => hwhole.eq_members (hexact.packing.isCore core hcore)
      (e.findContradictions_ascending budget limit core hcore)
  generalize (e.findContradictions budget limit).1 = search at *
  obtain ⟨satisfiability, cores, exhausted⟩ := search
  cases hanswer
  cases hrunning
  cases cores with
  | nil =>
      have hgood := hexact.maximal rfl hlimit
      rw [outside_nil] at hgood
      exact absurd hgood hwhole.inconsistent
  | cons core cores =>
      obtain ⟨rfl, hothers⟩ := List.forall_mem_cons.mp heq
      cases cores with
      | nil => rfl
      | cons other cores =>
          -- Two cores that are both all of the propositions are not disjoint.
          obtain ⟨rfl, _⟩ := List.forall_mem_cons.mp hothers
          have hdisjoint := (List.pairwise_cons.mp hexact.packing.disjoint).1 e.members
            (List.mem_cons_self ..)
          obtain ⟨member, hmember⟩ := List.exists_mem_of_ne_nil _ hwhole.nonempty
          exact absurd hmember (hdisjoint hmember)

end Encoding

/-- A core that is reported stands on its own.  In the argument that its propositions make with the
relationships between them, a search that is not stopped finds one core, which is all of it; and a
budget with enough steps lets no search be stopped. -/
theorem Request.findContradictions_part (r : Request) (options : EncodingOptions) (budget : Budget)
    (limit : Nat) (core : List Nat)
    (hcore : core ∈ ((r.validate.1.encode options).findContradictions budget limit).1.cores) :
    let part := (r.validate.1.part core).1
    let e := part.encode options
    (∀ (budget' : Budget) (limit' : Nat), 1 ≤ limit' →
      (e.findContradictions budget' limit').1.exhausted = none →
        (e.findContradictions budget' limit').1 = ⟨.unsat, [List.range part.size], none⟩) ∧
    ∃ steps, ∀ (budget' : Budget) (limit' : Nat), budget'.Unhindered →
      steps ≤ budget'.remaining → (e.findContradictions budget' limit').1.exhausted = none := by
  have hsettled := r.settled_validate
  have hexact := (r.validate.1.wellTagged_encode options).exact budget limit
  have hwhole := hsettled.isCore_kept (hexact.packing.isCore core hcore)
  rw [hsettled.part_eq core]
  intro part e
  have hwell : e.WellTagged := part.wellTagged_encode options
  constructor
  · intro budget' limit' hlimit hrunning
    exact hwhole.findContradictions_eq hwell hlimit hrunning
  · refine ⟨e.searchCost, fun budget' limit' hunhindered hsteps => ?_⟩
    exact hwell.exhausted_findContradictions ⟨hunhindered, hsteps⟩ limit'

/-- The two statements that contradict each other do so without the others. -/
theorem Request.findContradictions_part_quarrel :
    let arg := Encoding.quarrel.request.validate.1
    let e := (arg.part [1, 3]).1.encode {}
    [1, 3] ∈ ((arg.encode {}).findContradictions .unlimited 8).1.cores ∧
      (e.findContradictions .unlimited 1).1 = ⟨.unsat, [[0, 1]], none⟩ ∧
      ∃ steps, (e.findContradictions ⟨steps, 0, false, false⟩ 3).1.exhausted = none := by
  intro arg e
  have hcore : [1, 3] ∈ ((arg.encode {}).findContradictions .unlimited 8).1.cores := by
    decide +kernel
  obtain ⟨hfound, steps, hsteps⟩ :=
    findContradictions_part Encoding.quarrel.request {} .unlimited 8 [1, 3] hcore
  have hsize : (arg.part [1, 3]).1.size = 2 := by decide +kernel
  have hanswer := hfound .unlimited 1 (Nat.le_refl 1) (by decide +kernel)
  rw [hsize] at hanswer
  refine ⟨hcore, hanswer, steps, ?_⟩
  exact hsteps ⟨steps, 0, false, false⟩ 3 (Budget.unhindered_of_never rfl rfl) (Nat.le_refl _)

end Elenchus
