import Elenchus.Proofs.Contradiction.Search
import Elenchus.Proofs.Search.Bound

/-!
# The search for contradictions is finite

A budget that affords `Encoding.searchCost` steps lets the search for contradictions run to its end
(`WellTagged.exhausted_findContradictions`).

One search over some propositions costs at most `Encoding.cost`.  To shrink a core takes one search
for each proposition in it and one for the start, and every core that is taken out leaves fewer
propositions, so there are no more rounds than propositions.
-/

namespace Elenchus.Encoding

variable {e : Encoding} {members : List Nat} {budget : Budget} {rest : Nat}

/-- The most steps of one search over some propositions. -/
def cost (e : Encoding) : Nat :=
  Search.cost (max e.table.size (Search.variableBound (e.clauses.map (·.clause))))

/-- The most steps of a round: a core is taken out, and what is left is searched. -/
def roundCost (e : Encoding) : Nat := (e.propositions + 2) * e.cost

/-- The most steps of a search for contradictions. -/
def searchCost (e : Encoding) : Nat := e.cost + e.propositions * e.roundCost

theorem variableBound_restrict (e : Encoding) (members : List Nat) :
    Search.variableBound ((e.restrict members).map (·.1)) ≤
      Search.variableBound (e.clauses.map (·.clause)) := by
  refine Search.variableBound_le fun c hc l hl => ?_
  obtain ⟨⟨c, position⟩, hkept, rfl⟩ := List.mem_map.mp hc
  obtain ⟨t, hat, _, rfl⟩ := mem_restrict.mp hkept
  exact Search.lt_variableBound (List.mem_map_of_mem (List.mem_of_getElem? hat)) hl

/-- A search that the budget affords is decided. -/
theorem solveMembers_affords (members : List Nat) (h : budget.Affords (e.cost + rest)) :
    (∀ reason, (e.solveMembers members budget).outcome ≠ .unknown reason) ∧
      (e.solveMembers members budget).budget.Affords rest := by
  refine Search.solve_affords (h.mono (Nat.add_le_add_right (Search.cost_mono ?_) rest))
  have hbound := e.variableBound_restrict members
  omega

/-- A start that the budget affords is found. -/
theorem seed_affords (refutation positions : List Nat) (h : budget.Affords (e.cost + rest)) :
    ∃ start left, e.seed members refutation positions budget = (.ok start, left) ∧
      left.Affords rest := by
  unfold seed
  dsimp only
  split
  next => exact ⟨_, _, rfl, h.mono (Nat.le_add_left _ _)⟩
  next =>
    obtain ⟨hdecided, hleft⟩ :=
      solveMembers_affords (e.refuted refutation positions) h
    split
    next => exact ⟨_, _, rfl, hleft⟩
    next => exact ⟨_, _, rfl, hleft⟩
    next reason houtcome => exact absurd houtcome (hdecided reason)

/-- A pass that the budget affords is finished. -/
theorem shrink_affords {candidate tested : List Nat}
    (h : budget.Affords (tested.length * e.cost + rest)) :
    ∃ core left, e.shrink candidate budget tested = (.ok core, left) ∧ left.Affords rest := by
  induction tested generalizing candidate budget with
  | nil =>
      rw [List.length_nil, Nat.zero_mul, Nat.zero_add] at h
      exact ⟨_, _, rfl, h⟩
  | cons member others ih =>
      rw [List.length_cons, Nat.succ_mul, Nat.add_comm (_ * _), Nat.add_assoc] at h
      obtain ⟨hdecided, hleft⟩ :=
        solveMembers_affords (candidate.filter (· ≠ member)) h.looked
      have hskipped := h.looked.mono (Nat.le_add_left _ _)
      unfold shrink
      rw [h.unhindered.check]
      dsimp only
      split
      next =>
        split
        next => exact ih hleft
        next => exact ih hleft
        next reason houtcome => exact absurd houtcome (hdecided reason)
      next => exact ih hskipped

/-- Of given propositions in ascending order there are no more than are given. -/
theorem length_le_of_ascending {start : List Nat} (hstart : start.Pairwise (· < ·))
    (hsub : start ⊆ members) : start.length ≤ members.length :=
  (List.Nodup.subperm (hstart.imp Nat.ne_of_lt) hsub).length_le

/-- A core that the budget affords is found. -/
theorem minimalCore_affords (hmembers : members.Pairwise (· < ·)) (refutation : List Nat)
    (h : budget.Affords ((members.length + 1) * e.cost + rest)) :
    ∃ core left, e.minimalCore members refutation ((e.restrict members).map (·.2)) budget =
      (.ok core, left) ∧ left.Affords rest := by
  rw [Nat.succ_mul, Nat.add_comm (_ * _), Nat.add_assoc] at h
  obtain ⟨start, left, hseed, hleft⟩ :=
    seed_affords refutation ((e.restrict members).map (·.2)) h
  obtain ⟨hstart, hsub⟩ := seed_ascending hmembers hseed
  have hlength : (start.filter (· ∈ e.contributing)).length ≤ members.length :=
    Nat.le_trans (List.length_filter_le _ _) (length_le_of_ascending hstart hsub)
  have henough := Nat.add_le_add_right (Nat.mul_le_mul_right e.cost hlength) rest
  unfold minimalCore
  rw [hseed]
  exact shrink_affords (hleft.mono henough)

/-- Taking a core out leaves fewer propositions. -/
theorem IsCore.length_filter_lt {core : List Nat} (h : e.IsCore members core) :
    (members.filter (· ∉ core)).length < members.length := by
  obtain ⟨member, hmember⟩ := List.exists_mem_of_ne_nil core h.nonempty
  refine List.length_filter_lt_length_iff_exists.mpr ⟨member, h.subset hmember, ?_⟩
  simpa using hmember

/-- A round that the budget affords takes a core out, and the budget affords to go on with what is
left. -/
theorem round_affords (hwell : e.WellTagged) {active refutation : List Nat}
    (hactive : active.Sublist e.members)
    (houtcome : (e.solveMembers active budget).outcome = .unsatisfiable refutation)
    (h : (e.solveMembers active budget).budget.Affords (active.length * e.roundCost)) :
    ∃ core left, e.minimalCore active refutation (e.solveMembers active budget).positions
        (e.solveMembers active budget).budget = (.ok core, left) ∧
      left.Affords (e.cost + (active.filter (· ∉ core)).length * e.roundCost) := by
  have hsolve := e.solveMembers_spec active budget
  rw [houtcome] at hsolve
  have hgives := minimalCore_spec hwell hsolve.1 refutation (e.solveMembers active budget).budget
  have hne : active ≠ [] := fun hnil => hsolve.1 (hnil ▸ hwell.consistent_nil)
  obtain ⟨fewer, hfewer⟩ := Nat.exists_eq_succ_of_ne_zero (mt List.length_eq_zero_iff.mp hne)
  have hlength : active.length ≤ e.propositions :=
    Nat.le_trans hactive.length_le (Nat.le_of_eq List.length_range)
  have henough : (active.length + 1) * e.cost + (e.cost + fewer * e.roundCost) ≤
      active.length * e.roundCost := by
    rw [← Nat.add_assoc, ← Nat.succ_mul, hfewer, Nat.succ_mul fewer, Nat.add_comm]
    refine Nat.add_le_add_left (Nat.mul_le_mul_right e.cost ?_) _
    omega
  obtain ⟨core, left, hcore, hleft⟩ := minimalCore_affords
    (List.pairwise_lt_range.sublist hactive) refutation (h.mono henough)
  rw [hcore] at hgives
  have hless := hgives.2.length_filter_lt
  refine ⟨core, left, hcore, hleft.mono (Nat.add_le_add_left (Nat.mul_le_mul_right _ ?_) _)⟩
  omega

/-- A loop that the budget affords is not stopped. -/
theorem Rounds.exhausted_eq (hwell : e.WellTagged) {limit : Nat} {active : List Nat}
    {found : MemberResult} {search : ContradictionSearch} {answer : ContradictionSearch × Budget}
    (h : e.Rounds limit active found search answer) (hactive : active.Sublist e.members)
    (hfound : ∃ budget, found = e.solveMembers active budget)
    (hdecided : ∀ reason, found.outcome ≠ .unknown reason)
    (hleft : found.budget.Affords (active.length * e.roundCost)) :
    answer.1.exhausted = search.exhausted := by
  induction h with
  | satisfiable => rfl
  | stopped houtcome => exact absurd houtcome (hdecided _)
  | full => rfl
  | interrupted houtcome hlimit hcore =>
      obtain ⟨budget, rfl⟩ := hfound
      obtain ⟨core, after, hcore', _⟩ := round_affords hwell hactive houtcome hleft
      cases hcore.symm.trans hcore'
  | last => rfl
  | more houtcome hlimit hcore hrest ih =>
      obtain ⟨budget, rfl⟩ := hfound
      obtain ⟨core, after, hcore', hafter⟩ := round_affords hwell hactive houtcome hleft
      cases hcore.symm.trans hcore'
      obtain ⟨hdecided, hleft⟩ := solveMembers_affords _ hafter
      exact ih (List.filter_sublist.trans hactive) ⟨_, rfl⟩ hdecided hleft

/-- A search for contradictions that the budget affords is not stopped. -/
theorem WellTagged.exhausted_findContradictions (hwell : e.WellTagged)
    (h : budget.Affords e.searchCost) (limit : Nat) :
    (e.findContradictions budget limit).1.exhausted = none := by
  obtain ⟨hdecided, hleft⟩ := solveMembers_affords e.members h
  rw [← List.length_range (n := e.propositions)] at hleft
  exact (e.rounds_findContradictions budget limit).exhausted_eq hwell (.refl _) ⟨_, rfl⟩ hdecided
    hleft

end Elenchus.Encoding
