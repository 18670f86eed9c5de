import Mathlib.Data.List.Nodup
import Std.Data.String.ToNat
import Elenchus.Proofs.Engine.Agreement
import Elenchus.Proofs.Engine.Report
import Elenchus.Proofs.Graph.Stopped
import Elenchus.Proofs.Graph.Views

/-!
# The names in a report

A report speaks of the propositions of the validated argument and of no others, and what it finds has
names of its own that are all different (`EngineConfig.wellNamed_analyzeWithin`).

Every list of identifiers in a report is the list of the propositions at some positions
(`Argument.idsAt`), so it names only what is there, and it names nothing twice if the positions are
different (`Argument.names_idsAt`).  That is where the rules have to be looked at one by one: a cycle
meets no node twice whether or not the search for cycles was stopped, the nodes before a node are
found without the node itself, and a core is ascending.

Findings of one sort are numbered by their place (`Numbered`); a contradiction that is left out takes
no number.
-/

namespace Elenchus

/-! ## Numbers -/

section
variable {α κ : Type} [DecidableEq κ] {sort : α → κ} {number : α → Nat} {found : List α}

/-- The findings of each sort are numbered from 1, in their order and without gaps. -/
def Numbered (sort : α → κ) (number : α → Nat) (found : List α) : Prop :=
  ∀ k, (found.filter (sort · = k)).map number =
    List.range' 1 (found.filter (sort · = k)).length

/-- Of two findings of one sort the numbers are different. -/
theorem Numbered.pairwise (h : Numbered sort number found) :
    found.Pairwise fun a b => sort a = sort b → number a ≠ number b := by
  have hsorts : ∀ k, (found.filter (sort · = k)).Pairwise (number · ≠ number ·) := by
    intro k
    rw [← List.pairwise_map, h k]
    exact List.nodup_range'
  clear h
  induction found with
  | nil => exact .nil
  | cons a found ih =>
      refine List.pairwise_cons.mpr ⟨fun b hb hsort => ?_, ih fun k => ?_⟩
      · have hfirst := hsorts (sort a)
        rw [List.filter_cons_of_pos (by simp)] at hfirst
        exact (List.pairwise_cons.mp hfirst).1 b
          (List.mem_filter.mpr ⟨hb, decide_eq_true hsort.symm⟩)
      · exact (hsorts k).sublist ((List.sublist_cons_self a found).filter _)

/-- Names that tell the sort and the number are all different. -/
theorem Numbered.nodup_names (h : Numbered sort number found) {name : α → String}
    (hname : ∀ a b, name a = name b → sort a = sort b ∧ number a = number b) :
    (found.map name).Nodup := by
  refine List.pairwise_map.mpr (h.pairwise.imp fun hne heq => ?_)
  obtain ⟨hsort, hnumber⟩ := hname _ _ heq
  exact hne hsort hnumber

omit [DecidableEq κ] in
/-- Findings of one sort that are recorded with their place in a list. -/
theorem recorded {β : Type} {shown : List β} {record : β × Nat → α} {k : κ}
    (hsort : ∀ x, sort (record x) = k) (hnumber : ∀ x, number (record x) = x.2 + 1) :
    (∀ a ∈ shown.zipIdx.map record, sort a = k) ∧
      (shown.zipIdx.map record).map number =
        List.range' 1 (shown.zipIdx.map record).length := by
  have hplace : number ∘ record = (1 + ·) ∘ Prod.snd :=
    funext fun x => (hnumber x).trans (Nat.add_comm _ _)
  refine ⟨List.forall_mem_map.mpr fun x _ => hsort x, ?_⟩
  rw [List.map_map, hplace, ← List.map_map, List.zipIdx_map_snd, List.map_add_range',
    List.length_map, List.length_zipIdx]

/-- Findings that are listed sort by sort. -/
theorem numbered_flatMap {parts : List (κ × List α)} (hsorts : (parts.map Prod.fst).Nodup)
    (hparts : ∀ part ∈ parts, (∀ a ∈ part.2, sort a = part.1) ∧
      part.2.map number = List.range' 1 part.2.length) :
    Numbered sort number (parts.flatMap Prod.snd) := by
  induction parts with
  | nil => exact fun _ => rfl
  | cons part parts ih =>
      obtain ⟨hnew, hrest⟩ := List.nodup_cons.mp hsorts
      obtain ⟨⟨hsort, hnumber⟩, hothers⟩ := List.forall_mem_cons.mp hparts
      intro k
      rw [List.flatMap_cons, List.filter_append]
      by_cases hk : part.1 = k
      · have hall : part.2.filter (sort · = k) = part.2 :=
          List.filter_eq_self.mpr fun a ha => decide_eq_true ((hsort a ha).trans hk)
        have hnone : (parts.flatMap Prod.snd).filter (sort · = k) = [] := by
          refine List.filter_eq_nil_iff.mpr fun a ha => ?_
          obtain ⟨other, hother, ha⟩ := List.mem_flatMap.mp ha
          rw [decide_eq_true_eq, (hothers other hother).1 a ha, ← hk]
          exact fun heq => hnew (heq ▸ List.mem_map_of_mem hother)
        rw [hall, hnone, List.append_nil, hnumber]
      · have hnone : part.2.filter (sort · = k) = [] := by
          refine List.filter_eq_nil_iff.mpr fun a ha => ?_
          rw [decide_eq_true_eq, hsort a ha]
          exact hk
        rw [hnone, List.nil_append]
        exact ih hrest hothers k

end

/-! ## Names of findings -/

theorem FallacyPattern.eq_of_slug {p q : FallacyPattern} {x y : String}
    (h : "fallacy-" ++ p.slug ++ "-" ++ x = "fallacy-" ++ q.slug ++ "-" ++ y) : p = q ∧ x = y := by
  have hchars := congrArg String.toList h
  cases p <;> cases q
  case circular.circular | hastyGeneralization.hastyGeneralization | falseDilemma.falseDilemma |
      loadBearing.loadBearing => exact ⟨rfl, (String.append_right_inj _).mp h⟩
  all_goals simp [slug] at hchars

theorem Fallacy.eq_of_id {f f' : Fallacy} (h : f.id = f'.id) :
    f.pattern = f'.pattern ∧ f.number = f'.number :=
  (FallacyPattern.eq_of_slug h).imp_right Nat.repr_inj.mp

theorem BiasPattern.eq_of_slug {p q : BiasPattern} {x y : String}
    (h : "bias-" ++ p.slug ++ "-" ++ x = "bias-" ++ q.slug ++ "-" ++ y) : p = q ∧ x = y := by
  have hchars := congrArg String.toList h
  cases p <;> cases q
  case anchoring.anchoring | confirmation.confirmation | planningFallacy.planningFallacy |
      attributeSubstitution.attributeSubstitution =>
    exact ⟨rfl, (String.append_right_inj _).mp h⟩
  all_goals simp [slug] at hchars

theorem Bias.eq_of_id {b b' : Bias} (h : b.id = b'.id) :
    b.pattern = b'.pattern ∧ b.number = b'.number :=
  (BiasPattern.eq_of_slug h).imp_right Nat.repr_inj.mp

theorem Contradiction.number_of_id {c c' : Contradiction} (h : c.id = c'.id) :
    c.number = c'.number :=
  Nat.repr_inj.mp ((String.append_right_inj "contradiction-").mp h)

theorem Contradiction.nodup_ids {found : List Contradiction}
    (h : found.map (·.number) = List.range' 1 found.length) : (found.map (·.id)).Nodup := by
  have hnumbers : found.Pairwise (·.number ≠ ·.number) := by
    rw [← List.pairwise_map, h]
    exact List.nodup_range'
  exact List.pairwise_map.mpr (hnumbers.imp fun hne heq => hne (number_of_id heq))

/-- The identifiers of everything that was found. -/
def Report.findingIds (r : Report) : List String :=
  r.contradictions.map (·.id) ++ r.fallacies.map (·.id) ++ r.biases.map (·.id)

/-- Names of different things begin differently. -/
theorem Report.nodup_findingIds {r : Report} (hcontradictions : (r.contradictions.map (·.id)).Nodup)
    (hfallacies : (r.fallacies.map (·.id)).Nodup) (hbiases : (r.biases.map (·.id)).Nodup) :
    r.findingIds.Nodup := by
  have hc : ∀ x ∈ r.contradictions.map (·.id), x.toList.head? = some 'c' :=
    List.forall_mem_map.mpr fun c _ => by simp [Contradiction.id]
  have hf : ∀ x ∈ r.fallacies.map (·.id), x.toList.head? = some 'f' :=
    List.forall_mem_map.mpr fun f _ => by simp [Fallacy.id]
  have hb : ∀ x ∈ r.biases.map (·.id), x.toList.head? = some 'b' :=
    List.forall_mem_map.mpr fun b _ => by simp [Bias.id]
  have hapart {a b : Char} {names others : List String} (hne : a ≠ b)
      (hnames : ∀ x ∈ names, x.toList.head? = some a)
      (hothers : ∀ x ∈ others, x.toList.head? = some b) : names.Disjoint others :=
    fun x hx hx' => hne (Option.some.inj ((hnames x hx).symm.trans (hothers x hx')))
  exact (hcontradictions.append hfallacies (hapart (by decide) hc hf)).append hbiases
    (List.disjoint_append_left.mpr ⟨hapart (by decide) hc hb, hapart (by decide) hf hb⟩)

/-! ## What a report mentions -/

theorem flatMap_subset {α β : Type} {found : List α} {mentions : α → List β} {ids : List β}
    (h : ∀ a ∈ found, mentions a ⊆ ids) : found.flatMap mentions ⊆ ids := by
  intro id hid
  obtain ⟨a, ha, hid⟩ := List.mem_flatMap.mp hid
  exact h a ha hid

def Justification.mentions : Justification → List PropositionId
  | .premise propositions _ => propositions
  | _ => []

def Derivation.mentions (d : Derivation) : List PropositionId :=
  d.steps.flatMap (·.justification.mentions)

def Contradiction.mentions (c : Contradiction) : List PropositionId :=
  c.core ++ c.involved ++ c.derivation.mentions

def FallacyFinding.mentions : FallacyFinding → List PropositionId
  | .circular path => path
  | .loadBearing dependents _ => dependents
  | .hastyGeneralization | .falseDilemma => []

def Fallacy.mentions (f : Fallacy) : List PropositionId := f.affected ++ f.finding.mentions

def Annotation.mentions (a : Annotation) : List PropositionId := a.proposition :: a.vulnerable

/-- Every identifier that stands in a report, the warnings apart. -/
def Report.mentions (r : Report) : List PropositionId :=
  r.contradictions.flatMap (·.mentions) ++ r.fallacies.flatMap (·.mentions)
    ++ r.biases.flatMap (·.affected) ++ r.annotations.flatMap (·.mentions) ++ r.dependencyOrder

/-- Some identifiers of propositions of an argument, each once. -/
structure Argument.Names (arg : Argument) (ids : List PropositionId) : Prop where
  nodup : ids.Nodup
  subset : ids ⊆ arg.ids

namespace Argument

variable {arg : Argument} {members : List Nat}

theorem idsAt_subset (members : List Nat) : arg.idsAt members ⊆ arg.ids := by
  intro id hid
  obtain ⟨v, _, p, hp, rfl⟩ := mem_idsAt.mp hid
  exact List.mem_map_of_mem (List.mem_of_getElem? hp)

theorem names_idsAt (hids : arg.ids.Nodup) (h : members.Nodup) : arg.Names (arg.idsAt members) := by
  refine ⟨?_, idsAt_subset members⟩
  rw [idsAt, List.map_filterMap]
  refine h.filterMap fun v w id hv hw => ?_
  obtain ⟨p, hp, rfl⟩ := Option.map_eq_some_iff.mp hv
  obtain ⟨q, hq, hid⟩ := Option.map_eq_some_iff.mp hw
  exact position_eq hids hp hq hid.symm

theorem names_singleton (hids : arg.ids.Nodup) (v : Nat) : arg.Names (arg.idsAt [v]) :=
  names_idsAt hids (List.nodup_singleton v)

end Argument

/-! ## The rules -/

namespace ArgumentGraph

variable {g : ArgumentGraph} {v u : Nat}

/-- The nodes before a node are found without the node itself, each once. -/
theorem nodup_cons_predecessors (sort : Edge → Bool) : (v :: g.predecessors sort v).Nodup := by
  refine List.nodup_cons.mpr ⟨fun hmem => ?_, (pairwise_natSet _).imp Nat.ne_of_lt⟩
  obtain ⟨e, he, hsource⟩ := List.mem_map.mp (mem_natSet.mp hmem)
  simp only [entering, List.mem_filter, Bool.and_eq_true, Bool.not_eq_true', beq_iff_eq] at he
  obtain ⟨⟨_, htarget⟩, hloop, _⟩ := he
  rw [Edge.isLoop, hsource, htarget, beq_self_eq_true] at hloop
  cases hloop

/-- A fallacy that affects different propositions, and mentions none but those of the argument. -/
structure NamesFallacy (g : ArgumentGraph) (f : Fallacy) : Prop where
  affected : g.argument.Names f.affected
  mentions : f.finding.mentions ⊆ g.argument.ids

section
variable (hids : g.argument.ids.Nodup)
include hids

theorem names_circularReasoning {cycles : List (List Nat)} (h : ∀ cycle ∈ cycles, cycle.Nodup) :
    ∀ f ∈ g.circularReasoning cycles, g.NamesFallacy f := by
  intro f hf
  obtain ⟨⟨cycle, i⟩, hcycle, rfl⟩ := List.mem_map.mp hf
  refine ⟨Argument.names_idsAt hids (h cycle (List.fst_mem_of_mem_zipIdx hcycle)), ?_⟩
  intro id hid
  rcases List.mem_append.mp hid with hid | hid
  · exact Argument.idsAt_subset cycle hid
  · exact Argument.idsAt_subset cycle (List.mem_of_mem_take hid)

theorem names_hastyGeneralizations : ∀ f ∈ g.hastyGeneralizations, g.NamesFallacy f := by
  intro f hf
  obtain ⟨⟨v, i⟩, _, rfl⟩ := List.mem_map.mp hf
  exact ⟨Argument.names_idsAt hids (nodup_cons_predecessors _), List.nil_subset _⟩

theorem names_falseDilemmas : ∀ f ∈ g.falseDilemmas, g.NamesFallacy f := by
  intro f hf
  obtain ⟨⟨⟨v, expression⟩, i⟩, _, rfl⟩ := List.mem_map.mp hf
  exact ⟨Argument.names_idsAt hids (nodup_eraseDups _), List.nil_subset _⟩

theorem names_loadBearingAssumptions (adjacency : Adjacency) (centrality : Array Float)
    (threshold : Float) :
    ∀ f ∈ g.loadBearingAssumptions adjacency centrality threshold, g.NamesFallacy f := by
  intro f hf
  obtain ⟨v, _, haffected, hfinding⟩ := mem_loadBearingAssumptions hf
  constructor
  · rw [haffected]
    exact Argument.names_singleton hids v
  · rw [hfinding]
    exact Argument.idsAt_subset (adjacency.dependents v)

theorem names_biases (centrality : Array Float) :
    ∀ b ∈ g.biases centrality, g.argument.Names b.affected := by
  refine List.forall_mem_append.mpr ⟨List.forall_mem_append.mpr
    ⟨List.forall_mem_append.mpr ⟨?anchoring, ?confirmation⟩, ?planning⟩, ?substitution⟩
  case anchoring =>
    exact List.forall_mem_map.mpr fun (v, _) _ => Argument.names_singleton hids v
  case confirmation =>
    exact List.forall_mem_map.mpr fun _ _ => Argument.names_idsAt hids (nodup_eraseDups _)
  case planning =>
    exact List.forall_mem_map.mpr fun (v, _) _ => Argument.names_singleton hids v
  case substitution =>
    intro b hb
    obtain ⟨⟨⟨v, u⟩, i⟩, hshown, rfl⟩ := List.mem_map.mp hb
    obtain ⟨⟨p, w⟩, _, hpair⟩ := List.mem_flatMap.mp (List.fst_mem_of_mem_zipIdx hshown)
    obtain ⟨x, hx, hpair⟩ := List.mem_map.mp hpair
    cases hpair
    have hpredecessor : [u].Sublist (g.predecessors Edge.isSupport v) :=
      List.singleton_sublist.mpr (List.mem_filter.mp hx).1
    exact Argument.names_idsAt hids
      ((nodup_cons_predecessors Edge.isSupport).sublist (hpredecessor.cons_cons v))

/-- What a structural analysis finds is well named, however far it got. -/
theorem names_analyze (options : StructureOptions) (budget : Budget) :
    (∀ f ∈ (g.analyze options budget).fallacies, g.NamesFallacy f) ∧
      ∀ b ∈ (g.analyze options budget).biases, g.argument.Names b.affected := by
  refine ⟨List.forall_mem_append.mpr ⟨List.forall_mem_append.mpr ⟨List.forall_mem_append.mpr
    ⟨?_, names_hastyGeneralizations hids⟩, names_falseDilemmas hids⟩,
    names_loadBearingAssumptions hids _ _ _⟩, names_biases hids _⟩
  refine names_circularReasoning hids fun cycle hcycle => ?_
  obtain ⟨⟨start, rest, rfl, _, hnodup, _⟩, _⟩ :=
    Adjacency.isCycle_of_searchCycles supportChain_loops hcycle
  exact hnodup

end

theorem numbered_fallacies (options : StructureOptions) (budget : Budget) :
    Numbered Fallacy.pattern Fallacy.number (g.analyze options budget).fallacies := by
  let search := g.supportChain.searchCycles options.maxCycleLength options.maxCycles budget
  let bearing := g.loadBearingAssumptions g.undirected (g.analyze options budget).centrality
    options.loadBearingThreshold
  let parts : List (FallacyPattern × List Fallacy) :=
    [(.circular, g.circularReasoning search.1.cycles),
      (.hastyGeneralization, g.hastyGeneralizations), (.falseDilemma, g.falseDilemmas),
      (.loadBearing, bearing)]
  have hparts : (g.analyze options budget).fallacies = parts.flatMap Prod.snd := by
    show g.circularReasoning search.1.cycles ++ g.hastyGeneralizations ++ g.falseDilemmas ++
      bearing = _
    simp [parts]
  have hsorts : (parts.map Prod.fst).Nodup :=
    (by decide : [FallacyPattern.circular, .hastyGeneralization, .falseDilemma, .loadBearing].Nodup)
  rw [hparts]
  refine numbered_flatMap hsorts ?_
  simp only [parts, List.forall_mem_cons]
  exact ⟨recorded (fun _ => rfl) fun _ => rfl, recorded (fun _ => rfl) fun _ => rfl,
    recorded (fun _ => rfl) fun _ => rfl, recorded (fun _ => rfl) fun _ => rfl,
    List.forall_mem_nil _⟩

theorem numbered_biases (centrality : Array Float) :
    Numbered Bias.pattern Bias.number (g.biases centrality) := by
  let parts : List (BiasPattern × List Bias) :=
    [(.anchoring, g.anchoring centrality), (.confirmation, g.confirmation centrality),
      (.planningFallacy, g.planningFallacy centrality),
      (.attributeSubstitution, g.attributeSubstitution centrality)]
  have hparts : g.biases centrality = parts.flatMap Prod.snd := by
    simp [parts, biases]
  have hsorts : (parts.map Prod.fst).Nodup :=
    (by decide : [BiasPattern.anchoring, .confirmation, .planningFallacy,
      .attributeSubstitution].Nodup)
  rw [hparts]
  refine numbered_flatMap hsorts ?_
  simp only [parts, List.forall_mem_cons]
  exact ⟨recorded (fun _ => rfl) fun _ => rfl, recorded (fun _ => rfl) fun _ => rfl,
    recorded (fun _ => rfl) fun _ => rfl, recorded (fun _ => rfl) fun _ => rfl,
    List.forall_mem_nil _⟩

end ArgumentGraph

/-! ## Contradictions -/

namespace Encoding

variable {e : Encoding} {arg : Argument}

/-- The contradictions that are reported are numbered without gaps, whatever is left out. -/
theorem number_contradictionsOf (number : Nat) (budget : Budget) (cores : List (List Nat)) :
    (e.contradictionsOf arg number budget cores).1.map (·.number) =
      List.range' number (e.contradictionsOf arg number budget cores).1.length := by
  induction cores generalizing number budget with
  | nil => rfl
  | cons core cores ih =>
      unfold contradictionsOf
      split
      next error left heq => exact ih number left
      next d left heq =>
        rw [List.map_cons, List.length_cons, List.range'_succ, ih (number + 1) left]

theorem construct_of_derive {core : List Nat} {budget left : Budget} {d : Derivation}
    (h : e.derive arg core budget = (.ok d, left)) :
    (Derivation.construct e arg core budget).1 = .ok d := by
  unfold derive at h
  split at h
  next => cases h
  next built after hbuilt =>
    split at h
    next =>
      cases h
      rw [hbuilt]
    next => cases h

/-- A contradiction is reported of a core with a derivation that is constructed from it. -/
theorem exists_of_mem_contradictionsOf {number : Nat} {budget : Budget} {cores : List (List Nat)}
    {c : Contradiction} (h : c ∈ (e.contradictionsOf arg number budget cores).1) :
    ∃ core ∈ cores, c.core = arg.idsAt core ∧ c.involved = arg.idsAt (e.involved core) ∧
      ∃ budget, (Derivation.construct e arg core budget).1 = .ok c.derivation := by
  induction cores generalizing number budget with
  | nil => exact absurd h List.not_mem_nil
  | cons core cores ih =>
      have hrest {number : Nat} {left : Budget}
          (h : c ∈ (e.contradictionsOf arg number left cores).1) :
          ∃ core' ∈ core :: cores, c.core = arg.idsAt core' ∧
            c.involved = arg.idsAt (e.involved core') ∧
            ∃ budget, (Derivation.construct e arg core' budget).1 = .ok c.derivation := by
        obtain ⟨core', hcore', hc⟩ := ih h
        exact ⟨core', List.mem_cons_of_mem _ hcore', hc⟩
      unfold contradictionsOf at h
      split at h
      next error left heq => exact hrest h
      next d left heq =>
        rcases List.mem_cons.mp h with rfl | h
        · exact ⟨core, List.mem_cons_self, rfl, rfl, budget, construct_of_derive heq⟩
        · exact hrest h

theorem subset_involved {core : List Nat} (h : core ⊆ e.members) : core ⊆ e.involved core := by
  intro v hv
  refine List.mem_filter.mpr ⟨h hv, ?_⟩
  rw [Bool.or_eq_true, decide_eq_true_eq]
  exact .inl hv

end Encoding

/-- Only a premise mentions propositions. -/
theorem Step.isPremise_of_mentions {s : Step} {id : PropositionId}
    (h : id ∈ s.justification.mentions) : s.IsPremise := by
  obtain ⟨depth, statement, justification⟩ := s
  cases justification with
  | premise propositions source => exact ⟨propositions, source, rfl⟩
  | _ => exact absurd h List.not_mem_nil

/-- The premises of a derivation are stated by propositions of the argument. -/
theorem Derivation.mentions_construct {e : Encoding} {arg : Argument} {members : List Nat}
    {budget : Budget} {d : Derivation}
    (h : (Derivation.construct e arg members budget).1 = .ok d) : d.mentions ⊆ arg.ids := by
  rw [Derivation.construct_eq] at h
  split at h
  next => cases h
  next => cases h
  next refutation houtcome =>
    obtain ⟨later, hlog, _, hlater⟩ := ofLog_of_unsatisfiable e.isPremise_premises houtcome
    rw [hlog] at h
    cases h
    intro id hid
    obtain ⟨s, hs, hid⟩ := List.mem_flatMap.mp hid
    rcases List.mem_append.mp hs with hs | hs
    · obtain ⟨premise, hpremise, rfl⟩ := List.mem_map.mp hs
      obtain ⟨c, _, rfl⟩ := List.mem_map.mp hpremise
      obtain ⟨v, _, hv⟩ := List.mem_filterMap.mp hid
      obtain ⟨p, hp, rfl⟩ := Option.map_eq_some_iff.mp hv
      exact List.mem_map_of_mem (List.mem_of_getElem? hp)
    · exact absurd (Step.isPremise_of_mentions hid) (hlater s hs)

/-- What the logical half of an analysis reports. -/
structure Argument.NamesContradiction (arg : Argument) (c : Contradiction) : Prop where
  core : arg.Names c.core
  involved : c.core ⊆ c.involved
  mentions : c.mentions ⊆ arg.ids

theorem Argument.names_contradictions {arg : Argument} (hids : arg.ids.Nodup)
    (config : EngineConfig) (budget : Budget) :
    ∀ c ∈ (arg.analyzeLogic config budget).contradictions, arg.NamesContradiction c := by
  intro c hc
  let e := arg.encode config.encoding
  obtain ⟨core, hcore, hnames, hinvolved, _, hderivation⟩ :=
    Encoding.exists_of_mem_contradictionsOf hc
  have hmembers : core ⊆ e.members := (((arg.wellTagged_encode config.encoding).exact budget
    config.search.maxContradictions).packing.isCore core hcore).subset
  have hascending : core.Pairwise (· < ·) :=
    e.findContradictions_ascending budget config.search.maxContradictions core hcore
  refine ⟨?_, ?_, ?_⟩
  · rw [hnames]
    exact names_idsAt hids (hascending.imp Nat.ne_of_lt)
  · rw [hnames, hinvolved]
    intro id hid
    obtain ⟨v, hv, hp⟩ := mem_idsAt.mp hid
    exact mem_idsAt.mpr ⟨v, Encoding.subset_involved hmembers hv, hp⟩
  · refine List.append_subset.mpr ⟨List.append_subset.mpr ⟨?_, ?_⟩, ?_⟩
    · exact hnames ▸ idsAt_subset core
    · exact hinvolved ▸ idsAt_subset _
    · exact Derivation.mentions_construct hderivation

/-! ## Reports -/

/-- A report that mentions propositions of an argument only, in which every finding has a name and a
number of its own, and which lists no proposition twice. -/
structure Report.WellNamed (r : Report) (arg : Argument) : Prop where
  mentions : r.mentions ⊆ arg.ids
  contradictionNumbers : r.contradictions.map (·.number) = List.range' 1 r.contradictions.length
  fallacyNumbers (pattern : FallacyPattern) : (r.fallaciesOf pattern).map (·.number) =
    List.range' 1 (r.fallaciesOf pattern).length
  biasNumbers (pattern : BiasPattern) : (r.biasesOf pattern).map (·.number) =
    List.range' 1 (r.biasesOf pattern).length
  ids : r.findingIds.Nodup
  cores : ∀ c ∈ r.contradictions, c.core.Nodup ∧ c.core ⊆ c.involved
  fallacies : ∀ f ∈ r.fallacies, f.affected.Nodup
  biases : ∀ b ∈ r.biases, b.affected.Nodup

theorem Argument.mentions_fallacies {arg : Argument} (hids : arg.ids.Nodup)
    (options : StructureOptions) (budget : Budget) :
    (arg.graph.analyze options budget).fallacies.flatMap (·.mentions) ⊆ arg.ids := by
  refine flatMap_subset fun f hf => ?_
  obtain ⟨haffected, hmentions⟩ := (ArgumentGraph.names_analyze hids options budget).1 f hf
  exact List.append_subset.mpr ⟨haffected.subset, hmentions⟩

/-- Annotations are of propositions, and the vulnerable assumptions in them are at nodes. -/
theorem Argument.mentions_annotate (arg : Argument) (centrality : Array Float)
    (marked : Nat → Bool) (cores : List (List PropositionId)) :
    (arg.graph.annotate centrality marked cores).flatMap (·.mentions) ⊆ arg.ids := by
  refine flatMap_subset fun a ha => ?_
  obtain ⟨⟨p, v⟩, hp, rfl⟩ := List.mem_map.mp ha
  exact List.cons_subset.mpr
    ⟨List.mem_map_of_mem (List.mem_of_getElem? (ArgumentGraph.mem_propositions.mp hp)),
      idsAt_subset _⟩

/-- The report on a request is well named, whatever the configuration and however soon the budget of
either half runs out. -/
theorem EngineConfig.wellNamed_analyzeWithin (c : EngineConfig) (logicBudget graphBudget : Budget)
    (r : Request) (warnings : List Warning) :
    (c.analyzeWithin logicBudget graphBudget r.validate.1 warnings).WellNamed r.validate.1 := by
  have hids := r.nodup_ids
  generalize r.validate.1 = arg at hids ⊢
  by_cases hsize : arg.size = 0
  · have hreport : c.analyzeWithin logicBudget graphBudget arg warnings = .empty warnings :=
      if_pos hsize
    rw [hreport]
    exact ⟨List.nil_subset _, rfl, fun _ => rfl, fun _ => rfl, .nil,
      List.forall_mem_nil _, List.forall_mem_nil _, List.forall_mem_nil _⟩
  · have hlogic := arg.names_contradictions hids c logicBudget
    obtain ⟨hfallacies, hbiases⟩ := ArgumentGraph.names_analyze (g := arg.graph) hids c.graph graphBudget
    have hnumbers : (arg.analyzeLogic c logicBudget).contradictions.map (·.number) =
        List.range' 1 (arg.analyzeLogic c logicBudget).contradictions.length :=
      Encoding.number_contradictionsOf 1 _ _
    have hfallacyNumbers := arg.graph.numbered_fallacies c.graph graphBudget
    have hbiasNumbers :=
      arg.graph.numbered_biases (arg.graph.analyze c.graph graphBudget).centrality
    rw [analyzeWithin, if_neg hsize]
    constructor
    case mentions =>
      refine List.append_subset.mpr ⟨List.append_subset.mpr ⟨List.append_subset.mpr
        ⟨List.append_subset.mpr ⟨?contradictions, ?fallacies⟩, ?biases⟩, ?annotations⟩, ?order⟩
      case contradictions => exact flatMap_subset fun c hc => (hlogic c hc).mentions
      case fallacies => exact arg.mentions_fallacies hids c.graph graphBudget
      case biases => exact flatMap_subset fun b hb => (hbiases b hb).subset
      case annotations => exact arg.mentions_annotate _ _ _
      case order => exact Argument.idsAt_subset _
    case contradictionNumbers => exact hnumbers
    case fallacyNumbers => exact hfallacyNumbers
    case biasNumbers => exact hbiasNumbers
    case ids =>
      exact Report.nodup_findingIds (Contradiction.nodup_ids hnumbers)
        (hfallacyNumbers.nodup_names fun _ _ => Fallacy.eq_of_id)
        (hbiasNumbers.nodup_names fun _ _ => Bias.eq_of_id)
    case cores => exact fun c hc => ⟨(hlogic c hc).core.nodup, (hlogic c hc).involved⟩
    case fallacies => exact fun f hf => (hfallacies f hf).affected.nodup
    case biases => exact fun b hb => (hbiases b hb).nodup

end Elenchus
