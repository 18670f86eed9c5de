import Mathlib.Data.List.Basic
import Elenchus.Proofs.Budget
import Elenchus.Proofs.Graph.Blocking

/-!
# The search for cycles lists them all

In a graph without loops whose rows ascend, and with a budget that never refuses, the search finds
the first elementary cycles of the lexicographic order, as many as it may, and tells whether it
found that many (`findCycles_eq`).  The list that it is measured by is that of `Elementary.lean`, in
which no node is blocked.

The proof compares the two searches node by node.  What is found so far is the beginning of a list
(`Lists`); entering a node adds to the list all that extends the path over it (`Entered`), and going
on along the targets adds what extends it over each of them (`Followed`).  A target that is passed
over adds nothing: it is outside the component, or on the path, or blocked for a reason.  Once the
search is cut off the invariant of the blocked nodes is no longer kept; nothing is added then.
-/

namespace Elenchus

/-! ## What is found -/

/-- What was found are the first cycles of a list, and the search is cut off as soon as there are as
many as it may find. -/
structure Lists (limit : Nat) (all : List (List Nat)) (s : CycleState) : Prop where
  cycles : s.cycles.toList = all.take limit
  truncated : s.truncated = decide (limit ≤ all.length)

section
variable {limit : Nat} {all : List (List Nat)} {s : CycleState}

theorem Lists.found (h : Lists limit all s) (hrunning : s.truncated = false) (cycle : List Nat) :
    Lists limit (all ++ [cycle]) (s.found limit cycle) := by
  have hlt : all.length < limit := by
    have htruncated := h.truncated
    rw [hrunning] at htruncated
    exact Nat.lt_of_not_le (of_decide_eq_false htruncated.symm)
  have hlength : (all ++ [cycle]).length ≤ limit := by
    rw [List.length_append, List.length_singleton]
    exact hlt
  have hcycles : (s.cycles.push cycle).toList = all ++ [cycle] := by
    rw [Array.toList_push, h.cycles, List.take_of_length_le (Nat.le_of_lt hlt)]
  constructor
  · rw [List.take_of_length_le hlength]
    exact hcycles
  · change (s.truncated || decide (limit ≤ (s.cycles.push cycle).size)) = _
    rw [hrunning, Bool.false_or, ← Array.length_toList, hcycles]

/-- A search that is cut off finds nothing more. -/
theorem Lists.cut (h : Lists limit all s) (hcut : s.truncated = true) (more : List (List Nat)) :
    Lists limit (all ++ more) s := by
  have hle : limit ≤ all.length := of_decide_eq_true (h.truncated.symm.trans hcut)
  constructor
  · rw [List.take_append_of_le_length hle, h.cycles]
  · rw [hcut, List.length_append]
    exact (decide_eq_true (Nat.le_trans hle (Nat.le_add_right _ _))).symm

/-- A search that is not cut off was not cut off before. -/
theorem Lists.running {before : CycleState} {more : List (List Nat)} (h : Lists limit all before)
    (h' : Lists limit (all ++ more) s) (hrunning : s.truncated = false) :
    before.truncated = false := by
  rw [h'.truncated, List.length_append, decide_eq_false_iff_not] at hrunning
  rw [h.truncated, decide_eq_false_iff_not]
  omega

end

theorem CycleState.unblock_found (s : CycleState) (pending : List Nat) :
    (s.unblock pending).cycles = s.cycles ∧ (s.unblock pending).truncated = s.truncated ∧
      (s.unblock pending).budget = s.budget :=
  unblock_induction (P := fun t => t.cycles = s.cycles ∧ t.truncated = s.truncated ∧
    t.budget = s.budget) (fun _ _ _ h => h) ⟨rfl, rfl, rfl⟩ pending

/-! ## The search from one first node -/

section
variable {g : Adjacency} {start limit : Nat} {component : Marks}

/-- The state of a search at the end of a path: what is found is the beginning of a list, the budget
never refuses, and unless the search is cut off the path and all blocked nodes are as they should
be. -/
structure Searching (g : Adjacency) (start limit : Nat) (component : Marks) (path : List Nat)
    (all : List (List Nat)) (s : CycleState) : Prop where
  lists : Lists limit all s
  unhindered : s.budget.Unhindered
  settled : s.truncated = false → Settled g start component path s
  onPath : s.truncated = false → ∀ x ∈ path, s.blocked.has x = true

/-- What comes of entering a node from a state. -/
structure Entered (g : Adjacency) (start limit : Nat) (component : Marks) (room : Nat)
    (path : List Nat) (v : Nat) (all : List (List Nat)) (s : CycleState) (closed : Bool)
    (after : CycleState) : Prop where
  searching : Searching g start limit component path
    (all ++ g.cyclesFrom start room path v) after
  keeps : after.truncated = false → ∀ x, s.blocked.has x = true → after.blocked.has x = true
  blocked : after.truncated = false → closed = false → after.blocked.has v = true

/-- What comes of going on along some targets of the end of the path.  If no way on is found, all
of them in the component are blocked. -/
structure Followed (g : Adjacency) (start limit : Nat) (component : Marks) (room : Nat)
    (path targets : List Nat) (all : List (List Nat)) (closed : Bool) (s : CycleState)
    (closedAfter : Bool) (after : CycleState) : Prop where
  searching : Searching g start limit component path
    (all ++ targets.flatMap (g.branch start room path)) after
  keeps : after.truncated = false → ∀ x, s.blocked.has x = true → after.blocked.has x = true
  blocked : after.truncated = false → closedAfter = false → closed = false ∧
    ∀ next ∈ targets, component.has next = true → next ≠ start ∧ after.blocked.has next = true

variable {room : Nat} {path : List Nat} {all : List (List Nat)} {s : CycleState}

/-- One target, and then the others. -/
theorem Followed.cons {next : Nat} {rest : List Nat} {closed below closedAfter : Bool}
    {between after : CycleState}
    (hfirst : Followed g start limit component room path [next] all closed s below between)
    (hrest : Followed g start limit component room path rest
      (all ++ g.branch start room path next) below between closedAfter after) :
    Followed g start limit component room path (next :: rest) all closed s closedAfter after := by
  have hbetween : Lists limit (all ++ g.branch start room path next) between := by
    simpa using hfirst.searching.lists
  have hrunning := hbetween.running hrest.searching.lists
  constructor
  case searching =>
    rw [List.flatMap_cons, ← List.append_assoc]
    exact hrest.searching
  case keeps =>
    intro hafter x hx
    exact hrest.keeps hafter x (hfirst.keeps (hrunning hafter) x hx)
  case blocked =>
    intro hafter hclosed
    obtain ⟨hbelow, hall⟩ := hrest.blocked hafter hclosed
    obtain ⟨hbefore, hnext⟩ := hfirst.blocked (hrunning hafter) hbelow
    refine ⟨hbefore, List.forall_mem_cons.mpr ⟨?_, hall⟩⟩
    intro hmem
    obtain ⟨hne, hblocked⟩ := hnext next List.mem_cons_self hmem
    exact ⟨hne, hrest.keeps hafter next hblocked⟩

/-- Once the search is cut off the targets that are left are passed over. -/
theorem Searching.followed_cut (h : Searching g start limit component path all s)
    (hcut : s.truncated = true) (closed : Bool) (targets : List Nat) :
    Followed g start limit component room path targets all closed s closed s where
  searching := ⟨h.lists.cut hcut _, h.unhindered, h.settled, h.onPath⟩
  keeps := fun _ _ hx => hx
  blocked := by
    intro hrunning
    rw [hcut] at hrunning
    cases hrunning

/-- A target that is passed over adds nothing to the list. -/
theorem Searching.followed_skip (h : Searching g start limit component path all s) {next : Nat}
    (closed : Bool) (hnone : g.branch start room path next = [])
    (hblocked : component.has next = true → next ≠ start ∧ s.blocked.has next = true) :
    Followed g start limit component room path [next] all closed s closed s where
  searching := by
    rw [List.flatMap_singleton, hnone, List.append_nil]
    exact h
  keeps := fun _ _ hx => hx
  blocked := fun _ hclosed => ⟨hclosed, List.forall_mem_singleton.mpr hblocked⟩

/-- A target outside the component has no way back. -/
theorem branch_eq_nil_of_outside (hcomponent : g.Encloses start component) {v next : Nat}
    (hv : component.has v = true) (hmem : next ∈ g.targets v)
    (hout : ¬component.has next = true) : g.branch start room path next = [] := by
  have hne : next ≠ start := by
    rintro rfl
    exact hout hcomponent.first
  unfold Adjacency.branch
  rw [if_neg hne]
  split
  next hnext =>
    refine Adjacency.cyclesFrom_eq_nil fun rest hway => hout ?_
    exact hcomponent.next v next _ rest hv hmem hnext.1 hway
  next => rfl

/-- A blocked target is on the path or has no way back. -/
theorem Settled.branch_eq_nil (hcomponent : g.Encloses start component)
    (h : Settled g start component path s) {next : Nat} (hne : next ≠ start)
    (hblocked : s.blocked.has next = true) : g.branch start room path next = [] := by
  unfold Adjacency.branch
  rw [if_neg hne]
  split
  next hnext =>
    refine Adjacency.cyclesFrom_eq_nil fun rest => ?_
    exact h.no_wayBack hcomponent hblocked hnext.2 (List.Subset.refl path)
  next => rfl

/-- A target that can be entered is above the first node and not on the path. -/
theorem Searching.branch_eq (hcomponent : g.Encloses start component)
    (h : Searching g start limit component path all s) (hrunning : s.truncated = false)
    {next : Nat} (hne : next ≠ start) (hmem : component.has next = true)
    (hfree : ¬s.blocked.has next = true) :
    g.branch start room path next = g.cyclesFrom start room path next := by
  have hlt : start < next := Nat.lt_of_le_of_ne (hcomponent.le next hmem) (Ne.symm hne)
  rw [Adjacency.branch, if_neg hne, if_pos ⟨hlt, fun hon => hfree (h.onPath hrunning next hon)⟩]

/-- A target that was entered. -/
theorem Entered.followed (closed : Bool) {next : Nat} {below : Bool} {after : CycleState}
    (hne : next ≠ start)
    (hbranch : g.branch start room path next = g.cyclesFrom start room path next)
    (h : Entered g start limit component room path next all s below after) :
    Followed g start limit component room path [next] all closed s (closed || below) after where
  searching := by
    rw [List.flatMap_singleton, hbranch]
    exact h.searching
  keeps := h.keeps
  blocked := by
    intro hafter hclosed
    obtain ⟨hbefore, hbelow⟩ := Bool.or_eq_false_iff.mp hclosed
    exact ⟨hbefore, List.forall_mem_singleton.mpr fun _ => ⟨hne, h.blocked hafter hbelow⟩⟩

/-- The first node as a target closes the path. -/
theorem Searching.followed_first (h : Searching g start limit component path all s)
    (hrunning : s.truncated = false) (closed : Bool) :
    Followed g start limit component room path [start] all closed s true
      (s.found limit path.reverse) where
  searching := by
    have hsettled := h.settled hrunning
    rw [List.flatMap_singleton, Adjacency.branch, if_pos rfl]
    refine ⟨h.lists.found hrunning path.reverse, h.unhindered, fun _ => ?_, fun _ => ?_⟩
    · exact ⟨hsettled.size_blocked, hsettled.size_waiting, hsettled.inside, hsettled.awaited,
        hsettled.first, hsettled.targets⟩
    · exact h.onPath hrunning
  keeps := fun _ _ hx => hx
  blocked := fun _ hclosed => absurd hclosed Bool.noConfusion

/-- A node that is entered is the new end of the path. -/
theorem Searching.enter (hcomponent : g.Encloses start component)
    (h : Searching g start limit component path all s) (hrunning : s.truncated = false) {v : Nat}
    (hv : component.has v = true) :
    Searching g start limit component (v :: path) all (s.looked.block v) where
  lists := ⟨h.lists.cycles, h.lists.truncated⟩
  unhindered := h.unhindered.looked
  settled := fun _ => (h.settled hrunning).block hv
  onPath := by
    intro _ x hx
    rcases List.mem_cons.mp hx with rfl | hx
    · have hlt := hcomponent.lt_size x hv
      rw [← (h.settled hrunning).size_blocked] at hlt
      exact Marks.has_mark.mpr (.inl ⟨rfl, hlt⟩)
    · exact Marks.has_mark.mpr (.inr (h.onPath hrunning x hx))

/-- A node is left unblocked if there is a way on from it. -/
theorem Searching.leave_unblocked {v : Nat}
    (h : Searching g start limit component (v :: path) all s)
    (hkept : ∀ x ∈ path, (s.unblock [v]).blocked.has x = true) :
    Searching g start limit component path all (s.unblock [v]) := by
  obtain ⟨hcycles, htruncated, hbudget⟩ := s.unblock_found [v]
  constructor
  case lists => exact ⟨hcycles ▸ h.lists.cycles, htruncated ▸ h.lists.truncated⟩
  case unhindered => exact hbudget ▸ h.unhindered
  case settled =>
    intro hrunning
    rw [htruncated] at hrunning
    exact (h.settled hrunning).unblock
  case onPath => exact fun _ => hkept

/-- A node is left waiting if there is no way on from it, as its targets are all blocked. -/
theorem Searching.leave_waiting (hcomponent : g.Encloses start component) {v : Nat}
    (h : Searching g start limit component (v :: path) all s)
    (hall : s.truncated = false → ∀ next ∈ g.targets v, component.has next = true →
      next ≠ start ∧ s.blocked.has next = true) :
    Searching g start limit component path all
      (s.wait v ((g.targets v).filter component.has)) where
  lists := ⟨h.lists.cycles, h.lists.truncated⟩
  unhindered := h.unhindered
  settled := by
    intro hrunning
    refine (h.settled hrunning).wait hcomponent ?_ ?_
    · intro hmem
      exact (hall hrunning start hmem hcomponent.first).1 rfl
    · intro y hmem hin
      exact (hall hrunning y hmem hin).2
  onPath := by
    intro hrunning x hx
    exact h.onPath hrunning x (List.mem_cons_of_mem v hx)

/-- Going on along targets of the end of a path adds what extends the path over each of them, if
entering a node does. -/
theorem along_spec (room : Nat) (hcomponent : g.Encloses start component) {v : Nat}
    (hv : component.has v = true)
    {descend : Nat → CycleState → Except Exhaustion Bool × CycleState}
    (hdescend : ∀ next all s, Searching g start limit component path all s →
      s.truncated = false → component.has next = true → ¬s.blocked.has next = true →
        ∃ closed after, descend next s = (.ok closed, after) ∧
          Entered g start limit component room path next all s closed after)
    {targets : List Nat} (htargets : targets ⊆ g.targets v) (closed : Bool)
    (h : Searching g start limit component path all s) :
    ∃ closedAfter after,
      Adjacency.along component start limit descend path targets closed s =
        (.ok closedAfter, after) ∧
      Followed g start limit component room path targets all closed s closedAfter after := by
  induction targets generalizing closed s all with
  | nil =>
      refine ⟨closed, s, rfl, ?_, fun _ _ hx => hx, fun _ hclosed => ?_⟩
      · rw [List.flatMap_nil, List.append_nil]
        exact h
      · exact ⟨hclosed, List.forall_mem_nil _⟩
  | cons next rest ih =>
      obtain ⟨hmem, hrest⟩ := List.cons_subset.mp htargets
      -- What is left to do once the first target is dealt with.
      have hgo : ∀ {below : Bool} {between : CycleState},
          Followed g start limit component room path [next] all closed s below between →
          ∃ closedAfter after,
            Adjacency.along component start limit descend path rest below between =
              (.ok closedAfter, after) ∧
            Followed g start limit component room path (next :: rest) all closed s closedAfter
              after := by
        intro below between hfirst
        have hbetween : Searching g start limit component path
            (all ++ g.branch start room path next) between := by
          simpa using hfirst.searching
        obtain ⟨closedAfter, after, heq, hafter⟩ := ih hrest below hbetween
        exact ⟨closedAfter, after, heq, hfirst.cons hafter⟩
      unfold Adjacency.along
      by_cases hcut : s.truncated = true
      · rw [if_pos hcut]
        exact ⟨closed, s, rfl, h.followed_cut hcut closed (next :: rest)⟩
      have hrunning : s.truncated = false := Bool.eq_false_iff.mpr hcut
      rw [if_neg hcut]
      by_cases hout : component.has next = false
      · have hout' : ¬component.has next = true := Bool.eq_false_iff.mp hout
        rw [hout, if_pos Bool.not_false]
        exact hgo (h.followed_skip closed (branch_eq_nil_of_outside hcomponent hv hmem hout')
          fun hin => absurd hin hout')
      have hin : component.has next = true := eq_true_of_ne_false hout
      rw [hin, if_neg (by simp)]
      by_cases hfirst : next = start
      · subst hfirst
        rw [if_pos rfl]
        exact hgo (h.followed_first hrunning closed)
      rw [if_neg hfirst]
      by_cases hblocked : s.blocked.has next = true
      · rw [if_pos hblocked]
        have hnone : g.branch start room path next = [] :=
          (h.settled hrunning).branch_eq_nil hcomponent hfirst hblocked
        exact hgo (h.followed_skip closed hnone fun _ => ⟨hfirst, hblocked⟩)
      · obtain ⟨below, between, heq, hentered⟩ := hdescend next all s h hrunning hin hblocked
        have hbranch : g.branch start room path next = g.cyclesFrom start room path next :=
          h.branch_eq hcomponent hrunning hfirst hin hblocked
        rw [if_neg hblocked, heq]
        exact hgo (hentered.followed closed hfirst hbranch)

/-- Entering a node adds to the list all that extends the path over it. -/
theorem circuit_spec (room : Nat) (hcomponent : g.Encloses start component) {v : Nat}
    (h : Searching g start limit component path all s) (hrunning : s.truncated = false)
    (hv : component.has v = true) (hfree : ¬s.blocked.has v = true) :
    ∃ closed after, g.circuit component start limit room path v s = (.ok closed, after) ∧
      Entered g start limit component room path v all s closed after := by
  induction room generalizing path v all s with
  | zero =>
      refine ⟨true, s, rfl, ?_, fun _ _ hx => hx, fun _ hclosed => absurd hclosed Bool.noConfusion⟩
      rw [Adjacency.cyclesFrom, List.append_nil]
      exact h
  | succ room ih =>
      have hheld : (g.circuit component start limit (room + 1) path v s).2.Held
          (s.blocked.has · = true) :=
        (CycleState.held_blocked (h.settled hrunning).awaited).circuit g (room + 1) path hfree
      obtain ⟨closed, between, heq, hfollowed⟩ := along_spec room hcomponent hv
        (fun next all s hs hs' hnext hfree' => ih hs hs' hnext hfree') (List.Subset.refl _) false
        (h.enter hcomponent hrunning hv)
      have hsearching := hfollowed.searching
      rw [← Adjacency.cyclesFrom_succ] at hsearching
      unfold Adjacency.circuit at hheld ⊢
      rw [h.unhindered.check] at hheld ⊢
      dsimp only at hheld ⊢
      rw [heq] at hheld ⊢
      cases closed with
      | true =>
          have hkept : ∀ x ∈ path, (between.unblock [v]).blocked.has x = true :=
            fun x hx => hheld.blocked x (h.onPath hrunning x hx)
          exact ⟨true, _, rfl, hsearching.leave_unblocked hkept, fun _ => hheld.blocked,
            fun _ hclosed => absurd hclosed Bool.noConfusion⟩
      | false =>
          have hall := fun hafter => (hfollowed.blocked hafter rfl).2
          exact ⟨false, _, rfl, hsearching.leave_waiting hcomponent hall, fun _ => hheld.blocked,
            fun hafter _ => hsearching.onPath hafter v List.mem_cons_self⟩

end

/-! ## The whole search -/

namespace Adjacency

variable {g : Adjacency}

/-- The cycles that are found from a first node: none if it is alone in its component, and otherwise
all that start there, the one over a loop of it included. -/
def searched (g : Adjacency) (maxLength start : Nat) : List (List Nat) :=
  if (g.component g.reverse start).count < 2 then [] else g.cyclesFrom start maxLength [] start

/-- The search from some first nodes adds what is found from each of them. -/
theorem circuits_searched (g : Adjacency) (maxLength limit : Nat) {starts : List Nat}
    (hstarts : starts ⊆ g.nodes) {all : List (List Nat)} {s : CycleState}
    (hlists : Lists limit all s) (hbudget : s.budget.Unhindered)
    (hsize : s.blocked.size = g.size) (hrunning : s.truncated = false) :
    ∃ after, g.circuits g.reverse maxLength limit starts s = (none, after) ∧
      Lists limit (all ++ starts.flatMap (g.searched maxLength)) after := by
  induction starts generalizing all s with
  | nil =>
      refine ⟨s, rfl, ?_⟩
      rw [List.flatMap_nil, List.append_nil]
      exact hlists
  | cons start rest ih =>
      obtain ⟨hstart, hrest⟩ := List.cons_subset.mp hstarts
      have hcomponent := encloses_component (List.mem_range.mp hstart)
      unfold circuits
      rw [List.flatMap_cons, ← List.append_assoc, searched]
      dsimp only
      split
      next hcount =>
        rw [List.append_nil]
        exact ih hrest hlists hbudget hsize hrunning
      next =>
        have hsearching : Searching g start limit (g.component g.reverse start) [] all s.reset :=
          ⟨⟨hlists.cycles, hlists.truncated⟩, hbudget, fun _ => settled_reset hsize,
            fun _ => List.forall_mem_nil _⟩
        obtain ⟨closed, after, heq, hentered⟩ := circuit_spec maxLength hcomponent hsearching
          hrunning hcomponent.first (has_reset s start)
        rw [heq]
        dsimp only
        split
        next hcut => exact ⟨after, rfl, hentered.searching.lists.cut hcut _⟩
        next hcut =>
          have hafter : after.truncated = false := Bool.eq_false_iff.mpr hcut
          exact ih hrest hentered.searching.lists hentered.searching.unhindered
            (hentered.searching.settled hafter).size_blocked hafter

/-- In a graph without loops, the search from some first nodes adds all cycles that start there. -/
theorem circuits_spec (hloops : ∀ v ∈ g.nodes, v ∉ g.targets v) (maxLength limit : Nat)
    {starts : List Nat} (hstarts : starts ⊆ g.nodes) {all : List (List Nat)} {s : CycleState}
    (hlists : Lists limit all s) (hbudget : s.budget.Unhindered)
    (hsize : s.blocked.size = g.size) (hrunning : s.truncated = false) :
    ∃ after, g.circuits g.reverse maxLength limit starts s = (none, after) ∧
      Lists limit (all ++ starts.flatMap fun start => g.cyclesFrom start maxLength [] start)
        after := by
  have hsearched : starts.flatMap (g.searched maxLength) =
      starts.flatMap fun start => g.cyclesFrom start maxLength [] start := by
    refine List.flatMap_congr fun start hmem => ?_
    have hstart := hstarts hmem
    rw [searched]
    split
    next hcount =>
      exact (cyclesFrom_eq_nil_of_count (encloses_component (List.mem_range.mp hstart))
        (hloops start hstart) hcount maxLength).symm
    next => rfl
  rw [← hsearched]
  exact circuits_searched g maxLength limit hstarts hlists hbudget hsize hrunning

/-- In a graph without loops whose rows ascend, and with a budget that never refuses a look, the
search returns the first elementary cycles in the lexicographic order, and tells whether there are
as many as it may return. -/
theorem findCycles_eq (g : Adjacency) (maxLength maxCount : Nat) (budget : Budget)
    (hrows : ∀ row ∈ g.toRows, row.Pairwise (· < ·)) (hloops : ∀ v ∈ g.nodes, v ∉ g.targets v)
    (hcount : 1 ≤ maxCount) (hbudget : budget.Unhindered) :
    ∃ all : List (List Nat), all.Pairwise (· < ·) ∧
      (∀ cycle, cycle ∈ all ↔
        g.IsCycle cycle ∧ 2 ≤ cycle.length ∧ cycle.length ≤ maxLength) ∧
      g.findCycles maxLength maxCount budget =
        ⟨all.take maxCount, decide (maxCount ≤ all.length), none⟩ := by
  refine ⟨g.listing maxLength, pairwise_listing hrows maxLength, ?_, ?_⟩
  · intro cycle
    exact mem_listing hloops
  unfold findCycles searchCycles
  split
  next hnothing =>
    have hnil : g.listing maxLength = [] := by
      refine List.eq_nil_iff_forall_not_mem.mpr fun cycle hcycle => ?_
      obtain ⟨_, htwo, hle⟩ := (mem_listing hloops).mp hcycle
      omega
    rw [hnil, List.take_nil, List.length_nil, decide_eq_false (Nat.not_le_of_lt hcount)]
  next =>
    have hlists : Lists maxCount [] (.start g.size budget) :=
      ⟨(List.take_nil).symm, (decide_eq_false (Nat.not_le_of_lt hcount)).symm⟩
    obtain ⟨after, heq, hafter⟩ := circuits_spec hloops maxLength maxCount
      (List.Subset.refl g.nodes) hlists hbudget (Marks.size_none g.size) rfl
    rw [List.nil_append] at hafter
    rw [heq]
    dsimp only
    rw [hafter.cycles, hafter.truncated]
    rfl

/-- Three nodes in a circle, and an edge back from the second to the first. -/
def triangle : Adjacency := ofRows [[1], [0, 2], [0]]

theorem findCycles_triangle :
    (∀ row ∈ triangle.toRows, row.Pairwise (· < ·)) ∧
      (∀ v ∈ triangle.nodes, v ∉ triangle.targets v) ∧ Budget.unlimited.Unhindered ∧
      triangle.findCycles 3 2 .unlimited = ⟨[[0, 1], [0, 1, 2]], true, none⟩ ∧
      ∃ all : List (List Nat), all.Pairwise (· < ·) ∧
        (∀ cycle, cycle ∈ all ↔
          triangle.IsCycle cycle ∧ 2 ≤ cycle.length ∧ cycle.length ≤ 3) ∧
        triangle.findCycles 3 2 .unlimited = ⟨all.take 2, decide (2 ≤ all.length), none⟩ := by
  have hrows : ∀ row ∈ triangle.toRows, row.Pairwise (· < ·) := by decide
  have hloops : ∀ v ∈ triangle.nodes, v ∉ triangle.targets v := by decide
  have hbudget : Budget.unlimited.Unhindered := Budget.unhindered_of_never rfl rfl
  exact ⟨hrows, hloops, hbudget, by decide +kernel,
    findCycles_eq triangle 3 2 .unlimited hrows hloops (by decide) hbudget⟩

end Adjacency

end Elenchus
