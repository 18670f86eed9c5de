import Elenchus.Proofs.Argument.Stability
import Elenchus.Proofs.Contradiction.Search
import Elenchus.Proofs.Encoding.Members
import Elenchus.Proofs.Graph.Parallel

/-!
# Repeated relationships

To say the same twice adds nothing: a relationship that is stated once more leaves the answer on
satisfiability as it was, and circular reasoning, hasty generalizations, the order of dependencies
and the dependents of every node (`Request.validate_repeated`).

All of this holds of any two arguments with the same propositions and the same relationships,
whichever of these are repeated and in whatever order they stand (`Argument.Alike`).  Their graphs
are alike.  Their clauses are not the same, and neither are the searches over them; but a search that
is not stopped gives the right answer, and what is right is a matter of which relationships there
are (`Argument.consistent_iff`).
-/

namespace Elenchus

/-- A search that is not stopped says whether all propositions are consistent. -/
theorem Encoding.WellTagged.decided {e : Encoding} (hwell : e.WellTagged) {budget : Budget}
    {limit : Nat} (hdone : (e.findContradictions budget limit).1.exhausted = none) :
    (e.findContradictions budget limit).1.satisfiability = .sat ∧ e.Consistent e.members ∨
      (e.findContradictions budget limit).1.satisfiability = .unsat ∧ ¬e.Consistent e.members := by
  have hexact := hwell.exact budget limit
  cases hanswer : (e.findContradictions budget limit).1.satisfiability with
  | sat => exact .inl ⟨rfl, hexact.sat hanswer⟩
  | unsat => exact .inr ⟨rfl, hexact.unsat hanswer⟩
  | unknown => exact absurd hdone (hwell.exhausted_of_unknown hanswer)

namespace Argument

/-- The same propositions, and the same relationships, repeated or not and in any order. -/
structure Alike (arg other : Argument) : Prop where
  propositions : arg.propositions = other.propositions
  relationships : ∀ r, r ∈ arg.relationships ↔ r ∈ other.relationships

/-- An argument that states one relationship more, after all others. -/
def stating (arg : Argument) (r : Relationship) : Argument :=
  { arg with relationships := arg.relationships ++ [r] }

theorem alike_stating {arg : Argument} {r : Relationship} (hr : r ∈ arg.relationships) :
    arg.Alike (arg.stating r) := by
  refine ⟨rfl, fun other => ?_⟩
  show other ∈ arg.relationships ↔ other ∈ arg.relationships ++ [r]
  rw [List.mem_append, List.mem_singleton]
  constructor
  · exact .inl
  · rintro (hother | rfl)
    · exact hother
    · exact hr

theorem Settled.stating {arg : Argument} (h : arg.Settled) {r : Relationship}
    (hr : r ∈ arg.relationships) : (arg.stating r).Settled := by
  have hmem : ∀ other ∈ arg.relationships ++ [r], other ∈ arg.relationships :=
    List.forall_mem_append.mpr ⟨fun _ hother => hother, List.forall_mem_singleton.mpr hr⟩
  exact ⟨h.propositions, fun other hother => h.relationships other (hmem other hother), h.distinct,
    fun other hother => h.joined other (hmem other hother)⟩

theorem links_graph {arg : Argument} {kind : RelationshipKind} {u v : Nat} :
    arg.graph.Links kind u v ↔ ∃ r ∈ arg.relationships, r.kind = kind ∧
      arg.indexOf? r.fromId = some u ∧ arg.indexOf? r.toId = some v := by
  constructor
  · rintro ⟨e, he, rfl, rfl, rfl⟩
    obtain ⟨⟨r, i⟩, hr, hedge⟩ := List.mem_filterMap.mp he
    obtain ⟨source, hsource, hedge⟩ := Option.bind_eq_some_iff.mp hedge
    obtain ⟨target, htarget, hedge⟩ := Option.bind_eq_some_iff.mp hedge
    cases hedge
    exact ⟨r, List.fst_mem_of_mem_zipIdx hr, rfl, hsource, htarget⟩
  · rintro ⟨r, hr, rfl, hsource, htarget⟩
    obtain ⟨i, hi⟩ := List.getElem?_of_mem hr
    refine ⟨⟨u, v, r.kind, r.strength, i⟩, ?_, rfl, rfl, rfl⟩
    refine List.mem_filterMap.mpr ⟨(r, i), List.mk_mem_zipIdx_iff_getElem?.mpr hi, ?_⟩
    simp [edge?, hsource, htarget]

namespace Alike

variable {arg other : Argument} (h : arg.Alike other)

include h

theorem indexOf?_eq : arg.indexOf? = other.indexOf? := by
  funext id
  rw [indexOf?, indexOf?, arg.indexed, other.indexed, h.propositions]

theorem alike_graph : arg.graph.Alike other.graph := by
  refine ⟨h.propositions, fun kind u v => ?_⟩
  simp only [links_graph, h.indexOf?_eq, h.relationships]

theorem consistent_iff (hids : arg.ids.Nodup) (options : EncodingOptions) (members : List Nat) :
    (arg.encode options).Consistent members ↔ (other.encode options).Consistent members := by
  have hids' : other.ids.Nodup := by
    rw [ids, ← h.propositions]
    exact hids
  have hcoherent : ∀ value, Coherent options (arg.chosen members) arg.relationships value ↔
      Coherent options (other.chosen members) other.relationships value := by
    have hchosen : arg.chosen members = other.chosen members := by
      rw [chosen, chosen, h.propositions]
    intro value
    rw [hchosen]
    constructor
    · intro hvalue
      exact ⟨hvalue.asserted, fun r hr => hvalue.respected r ((h.relationships r).mpr hr)⟩
    · intro hvalue
      exact ⟨hvalue.asserted, fun r hr => hvalue.respected r ((h.relationships r).mp hr)⟩
  rw [Argument.consistent_iff hids, Argument.consistent_iff hids']
  exact exists_congr hcoherent

/-- Searches that are not stopped give the same answer, whatever budgets and limits they have. -/
theorem satisfiability_eq (hids : arg.ids.Nodup) (options : EncodingOptions)
    {budget budget' : Budget} {limit limit' : Nat}
    (hdone : ((arg.encode options).findContradictions budget limit).1.exhausted = none)
    (hdone' : ((other.encode options).findContradictions budget' limit').1.exhausted = none) :
    ((arg.encode options).findContradictions budget limit).1.satisfiability =
      ((other.encode options).findContradictions budget' limit').1.satisfiability := by
  have hmembers : (arg.encode options).members = (other.encode options).members := by
    show List.range arg.propositions.length = List.range other.propositions.length
    rw [h.propositions]
  have hsame := h.consistent_iff hids options (other.encode options).members
  rcases (arg.wellTagged_encode options).decided hdone with ⟨hanswer, hconsistent⟩ | ⟨hanswer, hnot⟩
  · rw [hmembers, hsame] at hconsistent
    obtain ⟨hanswer', _⟩ | ⟨_, hnot⟩ := (other.wellTagged_encode options).decided hdone'
    · rw [hanswer, hanswer']
    · exact absurd hconsistent hnot
  · rw [hmembers, hsame] at hnot
    obtain ⟨_, hconsistent⟩ | ⟨hanswer', _⟩ := (other.wellTagged_encode options).decided hdone'
    · exact absurd hconsistent hnot
    · rw [hanswer, hanswer']

end Alike

end Argument

/-- To state a relationship of a validated argument once more gives a validated argument, and changes
neither the answer on satisfiability, as long as no search is stopped, nor circular reasoning, hasty
generalizations, the order of dependencies and the dependents of any node. -/
theorem Request.validate_repeated (request : Request) (r : Relationship)
    (hr : r ∈ request.validate.1.relationships) :
    let arg := request.validate.1
    let again := arg.stating r
    Argument.ofParts arg.propositions (arg.relationships ++ [r]) = (again, []) ∧
    (∀ (options : EncodingOptions) (budget budget' : Budget) (limit limit' : Nat),
      ((arg.encode options).findContradictions budget limit).1.exhausted = none →
      ((again.encode options).findContradictions budget' limit').1.exhausted = none →
      ((again.encode options).findContradictions budget' limit').1.satisfiability =
        ((arg.encode options).findContradictions budget limit).1.satisfiability) ∧
    (∀ (maxLength maxCount : Nat) (budget : Budget),
      again.graph.circularReasoning
          (again.graph.supportChain.findCycles maxLength maxCount budget).cycles =
        arg.graph.circularReasoning
          (arg.graph.supportChain.findCycles maxLength maxCount budget).cycles) ∧
    again.graph.hastyGeneralizations = arg.graph.hastyGeneralizations ∧
    again.graph.dependencyOrder = arg.graph.dependencyOrder ∧
    ∀ via, again.graph.undirected.dependents via = arg.graph.undirected.dependents via := by
  intro arg again
  have halike : arg.Alike again := Argument.alike_stating hr
  have hgraph := halike.alike_graph
  have hclosed := arg.isClosed_graph
  have hclosed' := again.isClosed_graph
  refine ⟨(request.settled_validate.stating hr).validate_eq, ?_, ?_,
    hgraph.hastyGeneralizations_eq.symm,
    (hgraph.dependencyOrder_eq hclosed hclosed').symm, fun via => ?_⟩
  · intro options budget budget' limit limit' hdone hdone'
    exact (halike.satisfiability_eq request.nodup_ids options hdone hdone').symm
  · intro maxLength maxCount budget
    rw [← hgraph.supportChain_eq, ← hgraph.circularReasoning_eq]
  · have hundirected := ArgumentGraph.isUndirected_undirected hclosed
    have hundirected' := ArgumentGraph.isUndirected_undirected hclosed'
    exact (hgraph.alike_undirected.dependents_eq hundirected hundirected' via).symm

/-- Two statements that exclude each other, and the exclusion stated once more. -/
theorem Request.validate_repeated_quarrel :
    let arg := Encoding.quarrel.request.validate.1
    let r : Relationship := ⟨⟨"bd"⟩, ⟨"b"⟩, ⟨"d"⟩, .contradicts, .strong, none⟩
    r ∈ arg.relationships ∧
      ((arg.encode {}).findContradictions .unlimited 8).1.satisfiability = .unsat ∧
      (((arg.stating r).encode {}).findContradictions .unlimited 8).1.satisfiability =
        ((arg.encode {}).findContradictions .unlimited 8).1.satisfiability := by
  intro arg r
  obtain ⟨hr, hanswer, hdone⟩ : r ∈ arg.relationships ∧
      ((arg.encode {}).findContradictions .unlimited 8).1.satisfiability = .unsat ∧
      ((arg.encode {}).findContradictions .unlimited 8).1.exhausted = none := by
    decide +kernel
  have hdone' :
      (((arg.stating r).encode {}).findContradictions .unlimited 8).1.exhausted = none := by
    decide +kernel
  obtain ⟨_, hsame, _⟩ := Request.validate_repeated Encoding.quarrel.request r hr
  exact ⟨hr, hanswer, hsame {} .unlimited .unlimited 8 8 hdone hdone'⟩

end Elenchus
