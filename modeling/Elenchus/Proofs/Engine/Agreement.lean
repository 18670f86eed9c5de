import Mathlib.Data.List.Forall2
import Elenchus.Engine.Analysis
import Elenchus.Proofs.Argument.Validation
import Elenchus.Proofs.Contradiction.Search

/-!
# The parts of a report agree

An annotation says of one proposition what the fallacies and the contradictions of the same report
say of it (`EngineConfig.agrees_analyzeWithin`).

The two halves of an analysis number the propositions by position and report them by identifier, and
the identifiers of a validated argument are different, so that a mark at a position and an
identifier in a list can be compared (`Argument.mem_idsAt_iff`).  Marks, fallacies and annotations
all come from one table of betweenness, whether it was computed or is zero for want of budget.  A
proposition is in one contradiction at most, because the cores of the search are disjoint and the
contradictions are reported of some of them, each once (`Encoding.cores_contradictionsOf`).
-/

namespace Elenchus

/-! ## Propositions by identifier -/

namespace Argument

variable {arg : Argument} {p q : Proposition} {v w : Nat} {members : List Nat}

/-- Propositions at different positions have different identifiers. -/
theorem position_eq (h : arg.ids.Nodup) (hp : arg.propositions[v]? = some p)
    (hq : arg.propositions[w]? = some q) (hid : p.id = q.id) : v = w :=
  Option.some.inj (((indexOf?_eq_some_iff h).mpr ⟨p, hp, hid⟩).symm.trans
    ((indexOf?_eq_some_iff h).mpr ⟨q, hq, rfl⟩))

theorem mem_idsAt {id : PropositionId} :
    id ∈ arg.idsAt members ↔ ∃ v ∈ members, ∃ p, arg.propositions[v]? = some p ∧ p.id = id := by
  simp only [idsAt, List.mem_map, List.mem_filterMap]
  constructor
  · rintro ⟨p, ⟨v, hv, hp⟩, hid⟩
    exact ⟨v, hv, p, hp, hid⟩
  · rintro ⟨v, hv, p, hp, hid⟩
    exact ⟨p, ⟨v, hv, hp⟩, hid⟩

/-- A proposition is among those at some positions if its own position is one of them. -/
theorem mem_idsAt_iff (h : arg.ids.Nodup) (hp : arg.propositions[v]? = some p) :
    p.id ∈ arg.idsAt members ↔ v ∈ members := by
  rw [mem_idsAt]
  constructor
  · rintro ⟨w, hw, q, hq, hid⟩
    rwa [position_eq h hp hq hid.symm]
  · exact fun hv => ⟨v, hv, p, hp, rfl⟩

end Argument

theorem ArgumentGraph.ids_eq (g : ArgumentGraph) (members : List Nat) :
    g.ids members = g.argument.idsAt members := rfl

theorem Argument.idsAt_singleton {arg : Argument} {v : Nat} {p : Proposition}
    (hp : arg.propositions[v]? = some p) : arg.idsAt [v] = [p.id] := by
  simp [idsAt, hp]

/-! ## Load-bearing assumptions -/

namespace ArgumentGraph

variable {g : ArgumentGraph} {centrality : Array Float} {threshold : Float} {v : Nat}

theorem mem_propositions {p : Proposition} :
    (p, v) ∈ g.propositions ↔ g.argument.propositions[v]? = some p :=
  List.mk_mem_zipIdx_iff_getElem?

theorem mem_loadBearing :
    v ∈ g.loadBearing centrality threshold ↔
      ∃ p, g.argument.propositions[v]? = some p ∧ p.kind = .assumption ∧
        threshold < centralityAt centrality v := by
  simp only [loadBearing, List.mem_map, List.mem_filter, Prod.exists, mem_propositions]
  simp

theorem lt_size_of_mem_loadBearing (h : v ∈ g.loadBearing centrality threshold) : v < g.size := by
  obtain ⟨p, hp, _⟩ := mem_loadBearing.mp h
  exact (List.getElem?_eq_some_iff.mp hp).1

/-- The marks of a structural analysis are those of the assumptions that bear the load. -/
theorem loadBearing_analyze (options : StructureOptions) (budget : Budget) :
    (g.analyze options budget).loadBearing[v]?.getD false = true ↔
      v ∈ g.loadBearing (g.analyze options budget).centrality options.loadBearingThreshold := by
  show (g.nodes.map fun v => decide (v ∈ g.loadBearing (g.analyze options budget).centrality
    options.loadBearingThreshold))[v]?.getD false = true ↔ _
  rw [List.getElem?_map, nodes]
  by_cases hv : v < g.size
  · rw [List.getElem?_range hv]
    exact decide_eq_true_iff
  · rw [List.getElem?_eq_none (by rw [List.length_range]; omega)]
    exact iff_of_false Bool.false_ne_true (mt lt_size_of_mem_loadBearing hv)

theorem pattern_circularReasoning (cycles : List (List Nat)) :
    ∀ f ∈ g.circularReasoning cycles, f.pattern = .circular :=
  List.forall_mem_map.mpr fun _ _ => rfl

theorem pattern_hastyGeneralizations :
    ∀ f ∈ g.hastyGeneralizations, f.pattern = .hastyGeneralization :=
  List.forall_mem_map.mpr fun _ _ => rfl

theorem pattern_falseDilemmas : ∀ f ∈ g.falseDilemmas, f.pattern = .falseDilemma :=
  List.forall_mem_map.mpr fun _ _ => rfl

theorem pattern_loadBearingAssumptions (adjacency : Adjacency) :
    ∀ f ∈ g.loadBearingAssumptions adjacency centrality threshold, f.pattern = .loadBearing :=
  List.forall_mem_map.mpr fun _ _ => rfl

/-- Fallacies of one pattern are all of the pattern that is asked for, or none is. -/
theorem filter_pattern {found : List Fallacy} {pattern : FallacyPattern}
    (h : ∀ f ∈ found, f.pattern = pattern) (wanted : FallacyPattern) :
    found.filter (·.pattern = wanted) = if pattern = wanted then found else [] := by
  split
  next heq =>
    exact List.filter_eq_self.mpr fun f hf => decide_eq_true ((h f hf).trans heq)
  next hne =>
    refine List.filter_eq_nil_iff.mpr fun f hf => ?_
    rw [decide_eq_true_eq, h f hf]
    exact hne

/-- The fallacies of a structural analysis that are load-bearing assumptions. -/
theorem filter_fallacies_analyze (options : StructureOptions) (budget : Budget) :
    (g.analyze options budget).fallacies.filter (·.pattern = .loadBearing) =
      g.loadBearingAssumptions g.undirected (g.analyze options budget).centrality
        options.loadBearingThreshold := by
  let search := g.supportChain.searchCycles options.maxCycleLength options.maxCycles budget
  have hparts : (g.analyze options budget).fallacies =
      g.circularReasoning search.1.cycles ++ g.hastyGeneralizations ++ g.falseDilemmas ++
        g.loadBearingAssumptions g.undirected (g.analyze options budget).centrality
          options.loadBearingThreshold := rfl
  rw [hparts, List.filter_append, List.filter_append, List.filter_append,
    filter_pattern (pattern_circularReasoning _), filter_pattern pattern_hastyGeneralizations,
    filter_pattern pattern_falseDilemmas, filter_pattern (pattern_loadBearingAssumptions _)]
  rfl

/-- What an assumption that bears the load is recorded as. -/
theorem mem_loadBearingAssumptions {adjacency : Adjacency} {f : Fallacy}
    (h : f ∈ g.loadBearingAssumptions adjacency centrality threshold) :
    ∃ v ∈ g.loadBearing centrality threshold, f.affected = g.ids [v] ∧
      f.finding = .loadBearing (g.ids (adjacency.dependents v)) (centralityAt centrality v) := by
  obtain ⟨⟨v, i⟩, hv, rfl⟩ := List.mem_map.mp h
  exact ⟨v, List.fst_mem_of_mem_zipIdx hv, rfl, rfl⟩

/-- A fallacy that affects one proposition is about its node. -/
theorem finding_of_affected (hids : g.argument.ids.Nodup) {p : Proposition}
    (hp : g.argument.propositions[v]? = some p) {adjacency : Adjacency} {f : Fallacy}
    (hf : f ∈ g.loadBearingAssumptions adjacency centrality threshold)
    (haffected : f.affected = [p.id]) :
    v ∈ g.loadBearing centrality threshold ∧
      f.finding = .loadBearing (g.ids (adjacency.dependents v)) (centralityAt centrality v) := by
  obtain ⟨w, hw, hw', hfinding⟩ := mem_loadBearingAssumptions hf
  have hmem : p.id ∈ g.argument.idsAt [w] := by
    rw [← g.ids_eq, ← hw', haffected]
    exact List.mem_singleton_self _
  cases List.mem_singleton.mp ((Argument.mem_idsAt_iff hids hp).mp hmem)
  exact ⟨hw, hfinding⟩

/-- The assumptions that bear the load are those that a fallacy is recorded for. -/
theorem mem_loadBearing_iff_affected (hids : g.argument.ids.Nodup) {p : Proposition}
    (hp : g.argument.propositions[v]? = some p) (adjacency : Adjacency) :
    v ∈ g.loadBearing centrality threshold ↔
      ∃ f ∈ g.loadBearingAssumptions adjacency centrality threshold, f.affected = [p.id] := by
  constructor
  · intro hv
    obtain ⟨i, hi⟩ := List.getElem?_of_mem hv
    refine ⟨_, List.mem_map_of_mem (List.mk_mem_zipIdx_iff_getElem?.mpr hi), ?_⟩
    exact Argument.idsAt_singleton hp
  · rintro ⟨f, hf, haffected⟩
    exact (finding_of_affected hids hp hf haffected).1

/-! ## Vulnerable assumptions -/

/-- The neighbours of a node that are listed as vulnerable are other nodes that bear the load
without support. -/
theorem mem_vulnerableNeighbours {marked : Nat → Bool} {u : Nat}
    (h : u ∈ g.vulnerableNeighbours marked v) :
    u ≠ v ∧ marked u = true ∧ (g.entering u).filter (·.isSupport) = [] := by
  obtain ⟨-, hu⟩ := List.mem_filter.mp (mem_natSet.mp h)
  rw [Bool.and_eq_true, Bool.and_eq_true, bne_iff_ne, Bool.not_eq_true'] at hu
  obtain ⟨⟨hne, hmarked⟩, hsupport⟩ := hu
  exact ⟨hne, hmarked, List.filter_eq_nil_iff.mpr (List.any_eq_false.mp hsupport)⟩

end ArgumentGraph

/-! ## Contradictions -/

/-- Of disjoint sets, a number is in one at most. -/
theorem countP_mem_le_one {cores : List (List Nat)} (h : cores.Pairwise List.Disjoint) (v : Nat) :
    cores.countP (v ∈ ·) ≤ 1 := by
  induction h with
  | nil => exact Nat.zero_le 1
  | @cons core cores hdisjoint _ ih =>
      rw [List.countP_cons]
      by_cases hv : v ∈ core
      · have hnone : cores.countP (v ∈ ·) = 0 :=
          List.countP_eq_zero.mpr fun other hother => by simpa using hdisjoint other hother hv
        simp [hv, hnone]
      · simpa [hv] using ih

/-- The contradictions that are reported are of cores that were found, in the same order. -/
theorem Encoding.cores_contradictionsOf (e : Encoding) (arg : Argument) (number : Nat)
    (budget : Budget) (cores : List (List Nat)) :
    ((e.contradictionsOf arg number budget cores).1.map (·.core)).Sublist
      (cores.map arg.idsAt) := by
  induction cores generalizing number budget with
  | nil => exact .refl _
  | cons core cores ih =>
      unfold contradictionsOf
      split
      next => exact (ih _ _).cons _
      next => exact (ih _ _).cons_cons _

/-- A proposition is in the core of one contradiction at most. -/
theorem Argument.countP_contradictions_le {arg : Argument} (hids : arg.ids.Nodup)
    (config : EngineConfig) (budget : Budget) {p : Proposition} {v : Nat}
    (hp : arg.propositions[v]? = some p) :
    ((arg.analyzeLogic config budget).contradictions.map (·.core)).countP (p.id ∈ ·) ≤ 1 := by
  let e := arg.encode config.encoding
  let cores := (e.findContradictions budget config.search.maxContradictions).1.cores
  have hdisjoint := ((arg.wellTagged_encode config.encoding).exact budget
    config.search.maxContradictions).packing.disjoint
  calc ((arg.analyzeLogic config budget).contradictions.map (·.core)).countP (p.id ∈ ·)
    _ ≤ (cores.map arg.idsAt).countP (p.id ∈ ·) :=
        (e.cores_contradictionsOf arg 1 _ cores).countP_le
    _ = cores.countP (v ∈ ·) := by
        rw [List.countP_map]
        exact List.countP_congr fun core _ => by simp [mem_idsAt_iff hids hp]
    _ ≤ 1 := countP_mem_le_one hdisjoint v

/-! ## Reports -/

/-- An annotation of a proposition says what the rest of a report says of it. -/
structure Report.Agrees (report : Report) (arg : Argument) (p : Proposition) (a : Annotation) :
    Prop where
  about : a.proposition = p.id
  loadBearing_iff : a.loadBearing = true ↔
    ∃ f ∈ report.fallaciesOf .loadBearing, f.affected = [p.id]
  centrality : ∀ f ∈ report.fallaciesOf .loadBearing, f.affected = [p.id] →
    ∃ dependents, f.finding = .loadBearing dependents a.centrality
  contradictions : a.contradictions = report.contradictions.countP (p.id ∈ ·.core)
  contradictions_le : a.contradictions ≤ 1
  /-- A vulnerable assumption is another proposition, and its own annotation says what makes it
  vulnerable. -/
  vulnerable : ∀ id ∈ a.vulnerable, id ≠ p.id ∧
    ∃ q b, (q, b) ∈ arg.propositions.zip report.annotations ∧ q.id = id ∧ q.kind = .assumption ∧
      b.loadBearing = true ∧ b.evidencePaths = 0

section
variable {arg : Argument} {c : EngineConfig} {logicBudget graphBudget : Budget}
  {warnings : List Warning}

theorem EngineConfig.contradictions_analyzeWithin (hsize : arg.size ≠ 0) :
    (c.analyzeWithin logicBudget graphBudget arg warnings).contradictions =
      (arg.analyzeLogic c logicBudget).contradictions := by
  rw [analyzeWithin, if_neg hsize]

theorem EngineConfig.fallaciesOf_analyzeWithin (hsize : arg.size ≠ 0) :
    (c.analyzeWithin logicBudget graphBudget arg warnings).fallaciesOf .loadBearing =
      arg.graph.loadBearingAssumptions arg.graph.undirected
        (arg.graph.analyze c.graph graphBudget).centrality c.graph.loadBearingThreshold := by
  rw [analyzeWithin, if_neg hsize]
  exact ArgumentGraph.filter_fallacies_analyze c.graph graphBudget

/-- The annotation of the proposition at a node, in the report on an argument. -/
def EngineConfig.annotationAt (c : EngineConfig) (logicBudget graphBudget : Budget)
    (arg : Argument) (p : Proposition) (v : Nat) : Annotation :=
  let structural := arg.graph.analyze c.graph graphBudget
  arg.graph.annotation structural.centrality (structural.loadBearing[·]?.getD false)
    ((arg.analyzeLogic c logicBudget).contradictions.map (·.core)) p v

theorem EngineConfig.annotations_analyzeWithin (hsize : arg.size ≠ 0) :
    (c.analyzeWithin logicBudget graphBudget arg warnings).annotations =
      arg.propositions.zipIdx.map fun (p, v) =>
        c.annotationAt logicBudget graphBudget arg p v := by
  rw [analyzeWithin, if_neg hsize]
  rfl

/-- Each proposition goes with the annotation of its own node. -/
theorem EngineConfig.mem_zip_annotations (hsize : arg.size ≠ 0) {p : Proposition}
    {a : Annotation} :
    (p, a) ∈ arg.propositions.zip
        (c.analyzeWithin logicBudget graphBudget arg warnings).annotations ↔
      ∃ v, arg.propositions[v]? = some p ∧ a = c.annotationAt logicBudget graphBudget arg p v := by
  rw [annotations_analyzeWithin hsize, List.mem_iff_getElem?]
  refine exists_congr fun v => ?_
  rw [List.getElem?_zip_eq_some, List.getElem?_map, List.getElem?_zipIdx, Nat.zero_add]
  refine and_congr_right fun hp => ?_
  rw [hp]
  exact Option.some_inj.trans eq_comm

/-- The annotation of the proposition at a node agrees with the report. -/
theorem EngineConfig.agrees_annotationAt (hids : arg.ids.Nodup) {p : Proposition} {v : Nat}
    (hp : arg.propositions[v]? = some p) :
    (c.analyzeWithin logicBudget graphBudget arg warnings).Agrees arg p
      (c.annotationAt logicBudget graphBudget arg p v) := by
  have hsize : arg.size ≠ 0 :=
    Nat.ne_of_gt (Nat.zero_lt_of_lt (List.getElem?_eq_some_iff.mp hp).1)
  constructor
  case about => rfl
  case loadBearing_iff =>
    rw [fallaciesOf_analyzeWithin hsize]
    exact (ArgumentGraph.loadBearing_analyze c.graph graphBudget).trans
      (ArgumentGraph.mem_loadBearing_iff_affected hids hp _)
  case centrality =>
    intro f hf haffected
    rw [fallaciesOf_analyzeWithin hsize] at hf
    exact ⟨_, (ArgumentGraph.finding_of_affected hids hp hf haffected).2⟩
  case contradictions =>
    rw [contradictions_analyzeWithin hsize]
    exact List.countP_map
  case contradictions_le => exact arg.countP_contradictions_le hids c logicBudget hp
  case vulnerable =>
    intro id hid
    obtain ⟨u, hu, q, hq, rfl⟩ := Argument.mem_idsAt.mp hid
    obtain ⟨hne, hmarked, hsupport⟩ := ArgumentGraph.mem_vulnerableNeighbours hu
    obtain ⟨q', hq', hkind, -⟩ := ArgumentGraph.mem_loadBearing.mp
      ((ArgumentGraph.loadBearing_analyze c.graph graphBudget).mp hmarked)
    cases hq.symm.trans hq'
    exact ⟨fun heq => hne (Argument.position_eq hids hq hp heq), q,
      c.annotationAt logicBudget graphBudget arg q u,
      (mem_zip_annotations hsize).mpr ⟨u, hq, rfl⟩, rfl, hkind, hmarked,
      congrArg List.length hsupport⟩

/-- In the report on a request, each load-bearing fallacy is about one proposition, and the
annotation of each proposition agrees with the fallacies, the contradictions and the other
annotations. -/
theorem EngineConfig.agrees_analyzeWithin (c : EngineConfig) (logicBudget graphBudget : Budget)
    (r : Request) (warnings : List Warning) :
    let arg := r.validate.1
    let report := c.analyzeWithin logicBudget graphBudget arg warnings
    (∀ f ∈ report.fallaciesOf .loadBearing, ∃ p ∈ arg.propositions, f.affected = [p.id]) ∧
      List.Forall₂ (report.Agrees arg) arg.propositions report.annotations := by
  intro arg report
  by_cases hsize : arg.size = 0
  · have hreport : report = .empty warnings := if_pos hsize
    have hnone : arg.propositions = [] := List.eq_nil_of_length_eq_zero hsize
    rw [hreport, hnone]
    exact ⟨List.forall_mem_nil _, .nil⟩
  · constructor
    · intro f hf
      rw [fallaciesOf_analyzeWithin hsize] at hf
      obtain ⟨v, hv, haffected, -⟩ := ArgumentGraph.mem_loadBearingAssumptions hf
      obtain ⟨p, hp, -⟩ := ArgumentGraph.mem_loadBearing.mp hv
      exact ⟨p, List.mem_of_getElem? hp, haffected.trans (Argument.idsAt_singleton hp)⟩
    · refine List.forall₂_iff_zip.mpr ⟨?_, fun hmem => ?_⟩
      · rw [annotations_analyzeWithin hsize, List.length_map, List.length_zipIdx]
      · obtain ⟨v, hp, rfl⟩ := (mem_zip_annotations hsize).mp hmem
        exact agrees_annotationAt r.nodup_ids hp

end

end Elenchus
