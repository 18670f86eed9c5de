import Elenchus.Derivation.Builder
import Elenchus.Proofs.Derivation.Scope

/-!
# What the checker accepts

The converse of `Checker.lean`: under which conditions a citation is answered, a justification
holds and a step is accepted.

A derivation that is being written is checked along the way.  The checker looks into the finished
list of steps, of which the builder has written a part, so both are named: `Checker.Checked` says
where the checker stands after that part, and `Builder.Reads` the same with the scopes left that the
builder has left.  Writing a step, opening a case and closing one keep it.
-/

namespace Elenchus

/-- A clause is made of any one of its literals and the others. -/
theorem Clause.ofList_cons_filter {c : Clause} {l : Literal} (hl : l ∈ c.literals) :
    Clause.ofList (l :: c.literals.filter (· ≠ l)) = c := by
  apply Clause.ext_mem
  intro m
  rw [Clause.mem_ofList, List.mem_cons, List.mem_filter, decide_eq_true_eq]
  constructor
  · rintro (rfl | ⟨hm, _⟩)
    · exact hl
    · exact hm
  · intro hm
    by_cases hml : m = l
    · exact Or.inl hml
    · exact Or.inr ⟨hm, hml⟩

theorem Clause.size_eq_filter {c : Clause} {l : Literal} (hl : l ∈ c.literals) :
    c.size = (c.literals.filter (· ≠ l)).length + 1 := by
  have hsame : c.literals.filter (· ≠ l) = c.literals.erase l := by
    rw [c.ascending.nodup.erase_eq_filter]
    exact List.filter_congr fun m _ => by by_cases h : m = l <;> simp [h]
  have hpos := List.length_pos_of_mem hl
  rw [Clause.size, hsame, List.length_erase_of_mem hl]
  omega

namespace Checker

section
variable {steps : List Step} {k k' : Checker} {line : Nat} {s : Step}

/-! ## Citations that are answered -/

theorem citedLiteral_eq {n : Nat} {l : Literal} {t : Step} (hlt : n < line)
    (hv : k.isVisible n = true) (hcitable : n ∉ k.uncitable) (ht : step? steps n = some t)
    (hl : t.statement = .literal l) : k.citedLiteral steps line n = .ok l := by
  rw [citedLiteral, if_neg (not_not_intro ⟨hlt, hv⟩), if_neg hcitable, ht, Option.map_some, hl]

theorem citedClause_eq {n depth : Nat} {c : Clause} {propositions : List PropositionId}
    {source : String} (hlt : n < line) (hv : k.isVisible n = true)
    (ht : step? steps n = some ⟨depth, .clause c, .premise propositions source⟩) :
    k.citedClause steps line n = .ok c := by
  rw [citedClause, if_neg (not_not_intro ⟨hlt, hv⟩), ht]

theorem hypothesis_eq {first last depth : Nat} {l : Literal} {t u : Step}
    (hclosed : ⟨first, last, depth + 1⟩ ∈ k.closed) (hopened : k.scope.getLast?.getD 0 < first)
    (ht : step? steps last = some t) (hbottom : t.statement = .bottom)
    (hu : step? steps first = some u) (hl : u.statement = .literal l) :
    k.hypothesis steps depth (first, last) = .ok l := by
  have hnot : ¬(⟨first, last, depth + 1⟩ ∉ k.closed ∨ first ≤ k.scope.getLast?.getD 0) := by
    rintro (h | h)
    · exact h hclosed
    · exact Nat.not_le_of_lt hopened h
  simp only [hypothesis, if_neg hnot, ht, hu, Option.map_some, hbottom, hl, ne_eq,
    not_true_eq_false, if_false]

/-! ## Justifications that hold -/

theorem justify_premise {propositions : List PropositionId} {source : String} {c : Clause} :
    k.justify steps line ⟨0, .clause c, .premise propositions source⟩ = .ok () := rfl

theorem justify_pureLiteral {depth : Nat} {l : Literal} :
    k.justify steps line ⟨depth, .literal l, .pureLiteral⟩ = .ok () := rfl

/-- A literal of a clause follows when all others are refuted by the steps that are cited. -/
theorem justify_unitResolution {depth clause : Nat} {antecedents : List Nat} {c : Clause}
    {l : Literal} (hl : l ∈ c.literals) (hc : k.citedClause steps line clause = .ok c)
    (hothers : List.Forall₂ (fun n m => k.citedLiteral steps line n = .ok m) antecedents
      ((c.literals.filter (· ≠ l)).map Literal.negate)) :
    k.justify steps line ⟨depth, .literal l, .unitResolution clause antecedents⟩ = .ok () := by
  have hexpected : Clause.ofList
      (l :: ((c.literals.filter (· ≠ l)).map Literal.negate).map Literal.negate) = c := by
    rw [List.map_map, show Literal.negate ∘ Literal.negate = id from
      funext Literal.negate_negate, List.map_id, Clause.ofList_cons_filter hl]
  have hlength : c.size = antecedents.length + 1 := by
    rw [Clause.size_eq_filter hl, hothers.length_eq, List.length_map]
  simp only [justify, bind_eq_ok]
  refine ⟨c, hc, _, mapM_eq_ok.mpr hothers, ?_⟩
  rw [hexpected, if_pos ⟨rfl, hlength⟩]

theorem justify_contradiction {depth positive negative : Nat} {l : Literal}
    (hpositive : k.citedLiteral steps line positive = .ok l)
    (hnegative : k.citedLiteral steps line negative = .ok l.negate) :
    k.justify steps line ⟨depth, .bottom, .contradiction positive negative⟩ = .ok () := by
  simp only [justify, ne_eq, not_true_eq_false, if_false, bind_eq_ok]
  exact ⟨l, hpositive, l.negate, hnegative, if_pos rfl⟩

theorem justify_emptyClause {depth clause : Nat} {c : Clause}
    (hc : k.citedClause steps line clause = .ok c) (hempty : c.literals = []) :
    k.justify steps line ⟨depth, .bottom, .emptyClause clause⟩ = .ok () := by
  simp only [justify, ne_eq, not_true_eq_false, if_false, bind_eq_ok]
  exact ⟨c, hc, if_pos (congrArg List.length hempty)⟩

theorem justify_caseAnalysis {depth : Nat} {one other : Nat × Nat} {l : Literal}
    (hone : k.hypothesis steps depth one = .ok l)
    (hother : k.hypothesis steps depth other = .ok l.negate) :
    k.justify steps line ⟨depth, .bottom, .caseAnalysis [one, other]⟩ = .ok () := by
  simp only [justify, ne_eq, not_true_eq_false, if_false, bind_eq_ok]
  refine ⟨[l, l.negate], mapM_eq_ok.mpr (.cons hone (.cons hother .nil)), ?_⟩
  simp only [Literal.negate_negate, if_true]

/-! ## Steps that are accepted -/

theorem check_assumption {depth : Nat} {l : Literal} (hle : depth ≤ k.depth) :
    k.check steps line ⟨depth + 1, .literal l, .assumption⟩ = .ok ((k.leave depth).enter line) := by
  have hnot : ¬(depth + 1 = 0 ∨ k.depth + 1 < depth + 1) := by omega
  simp only [check, if_true, if_neg hnot]
  rfl

theorem check_other (hassume : s.justification ≠ .assumption) (hle : s.depth ≤ k.depth)
    (hj : (k.leave s.depth).justify steps line s = .ok ()) :
    k.check steps line s = .ok ((k.leave s.depth).write line s) := by
  rw [check, if_neg hassume, if_neg (Nat.not_lt.mpr hle)]
  exact bind_eq_ok.mpr ⟨(), hj, rfl⟩

/-! ## Checking along -/

/-- Where the checker stands after some steps of a list, the latest first. -/
inductive Checked (full : List Step) : List Step → Checker → Prop
  | start : Checked full [] .start
  | step {earlier : List Step} {k k' : Checker} {s : Step} : Checked full earlier k →
      k.check full (earlier.length + 1) s = .ok k' → Checked full (s :: earlier) k'

/-- What is left to check after some steps were checked. -/
theorem Checked.checkFrom {full earlier : List Step} {k : Checker} (h : Checked full earlier k)
    (rest : List Step) :
    Checker.start.checkFrom full 1 (earlier.reverse ++ rest) =
      k.checkFrom full (earlier.length + 1) rest := by
  induction h generalizing rest with
  | start => rfl
  | @step earlier k k' s _ hcheck ih =>
      rw [List.reverse_cons, List.append_assoc, ih, List.singleton_append, Checker.checkFrom,
        hcheck]
      rfl

/-- The step after those that were written has the next number. -/
theorem step?_of_written {full earlier : List Step} {s : Step}
    (h : (s :: earlier).reverse <+: full) : step? full (earlier.length + 1) = some s := by
  have hat := List.prefix_iff_getElem?.mp h earlier.length (by simp)
  rw [step?, if_neg (Nat.succ_ne_zero _), Nat.add_sub_cancel, hat]
  simp

theorem prefix_of_cons {full earlier : List Step} {s : Step}
    (h : (s :: earlier).reverse <+: full) : earlier.reverse <+: full := by
  rw [List.reverse_cons] at h
  exact (List.prefix_append _ _).trans h

theorem Checked.placed {full earlier : List Step} {k : Checker} (h : Checked full earlier k)
    (hfull : earlier.reverse <+: full) : Placed full k (earlier.length + 1) := by
  induction h with
  | start => exact placed_start
  | step _ hcheck ih => exact (ih (prefix_of_cons hfull)).check (step?_of_written hfull) hcheck

/-- Only choices of the search may not be cited. -/
theorem Checked.uncitable {full earlier : List Step} {k : Checker} (h : Checked full earlier k)
    (hfull : earlier.reverse <+: full) {n : Nat} (hn : n ∈ k.uncitable) :
    ∃ t, step? full n = some t ∧ t.justification = .pureLiteral := by
  induction h with
  | start => exact absurd hn List.not_mem_nil
  | @step earlier k k' s _ hcheck ih =>
      have hrest := prefix_of_cons hfull
      rcases check_cases hcheck with ⟨_, _, _, _, rfl⟩ | ⟨_, _, _, rfl⟩
      · exact ih hrest hn
      · change n ∈ if s.justification = .pureLiteral then _ else _ at hn
        split at hn
        · rename_i hpure
          rcases List.mem_cons.mp hn with rfl | hn
          · exact ⟨s, step?_of_written hfull, hpure⟩
          · exact ih hrest hn
        · exact ih hrest hn

end

end Checker

/-! ## Writing along -/

/-- The steps written are the first ones of a list, and the checker has accepted them; the scopes
deeper than the innermost open case are left. -/
structure Builder.Reads (full : List Step) (b : Builder) (k : Checker) : Prop where
  count : b.count = b.steps.length
  written : b.steps.reverse <+: full
  reached : ∃ k', Checker.Checked full b.steps k' ∧ b.outer.length ≤ k'.depth ∧
    k = k'.leave b.outer.length

namespace Builder.Reads

variable {full : List Step} {b b' : Builder} {k : Checker}

theorem depth (h : b.Reads full k) : k.depth = b.outer.length := by
  obtain ⟨k', _, hle, rfl⟩ := h.reached
  rw [Checker.depth_leave]
  omega

theorem placed (h : b.Reads full k) : Checker.Placed full k (b.count + 1) := by
  obtain ⟨k', hchecked, _, rfl⟩ := h.reached
  rw [h.count]
  exact (hchecked.placed h.written).leave _

theorem uncitable (h : b.Reads full k) {n : Nat} (hn : n ∈ k.uncitable) :
    ∃ t, Checker.step? full n = some t ∧ t.justification = .pureLiteral := by
  obtain ⟨k', hchecked, _, rfl⟩ := h.reached
  exact hchecked.uncitable h.written hn

/-- The number of the next step. -/
theorem next {s : Step} (h : b.Reads full k) (hfull : (s :: b.steps).reverse <+: full) :
    Checker.step? full (b.count + 1) = some s := by
  rw [h.count]
  exact Checker.step?_of_written hfull

/-- What is kept of the open cases does not matter to the checker. -/
theorem frame (h : b.Reads full k) (hsteps : b'.steps = b.steps) (hcount : b'.count = b.count)
    (hdepth : b'.outer.length = b.outer.length) : b'.Reads full k := by
  obtain ⟨hc, hw, hr⟩ := h
  exact ⟨by rw [hcount, hsteps, hc], by rw [hsteps]; exact hw, by rw [hsteps, hdepth]; exact hr⟩

/-- A step that is justified where the builder stands is accepted. -/
theorem push {statement : Statement} {justification : Justification} (h : b.Reads full k)
    (hfull : (b.push statement justification).steps.reverse <+: full)
    (hassume : justification ≠ .assumption)
    (hj : k.justify full (b.count + 1) ⟨b.outer.length, statement, justification⟩ = .ok ()) :
    (b.push statement justification).Reads full
      (k.write (b.count + 1) ⟨b.outer.length, statement, justification⟩) := by
  obtain ⟨k', hchecked, hle, rfl⟩ := h.reached
  have hcheck := Checker.check_other (k := k') hassume hle hj
  rw [h.count] at hcheck ⊢
  have hwritten : ((k'.leave b.outer.length).write (b.steps.length + 1)
      ⟨b.outer.length, statement, justification⟩).depth = b.outer.length := h.depth
  exact ⟨congrArg (· + 1) h.count, hfull, _, .step hchecked hcheck, Nat.le_of_eq hwritten.symm,
    (Checker.leave_of_le (Nat.le_of_eq hwritten)).symm⟩

/-- An assumption opens a case. -/
theorem openCase {l : Literal} (h : b.Reads full k)
    (hsteps : b'.steps = ⟨b.outer.length + 1, .literal l, .assumption⟩ :: b.steps)
    (hcount : b'.count = b.count + 1) (hdepth : b'.outer.length = b.outer.length + 1)
    (hfull : b'.steps.reverse <+: full) : b'.Reads full (k.enter (b.count + 1)) := by
  obtain ⟨k', hchecked, hle, rfl⟩ := h.reached
  have hdepth' : ((k'.leave b.outer.length).enter (b.count + 1)).depth = b.outer.length + 1 :=
    congrArg (· + 1) h.depth
  refine ⟨by rw [hcount, hsteps, h.count]; rfl, hfull,
    (k'.leave b.outer.length).enter (b.count + 1), ?_, ?_, ?_⟩
  · rw [hsteps, h.count]
    exact .step hchecked (Checker.check_assumption hle)
  · omega
  · exact (Checker.leave_of_le (by omega)).symm

/-- A case is closed when its scope is left. -/
theorem closeCase (h : b.Reads full k) (hsteps : b'.steps = b.steps) (hcount : b'.count = b.count)
    (hdepth : b.outer.length = b'.outer.length + 1) : b'.Reads full k.pop := by
  have hk := h.depth
  obtain ⟨k', hchecked, hle, rfl⟩ := h.reached
  refine ⟨by rw [hcount, hsteps, h.count], by rw [hsteps]; exact h.written, k', ?_, by omega, ?_⟩
  · rw [hsteps]
    exact hchecked
  · rw [← Checker.leave_leave k' (show b'.outer.length ≤ b.outer.length by omega),
      Checker.leave_eq _ b'.outer.length, if_pos (by omega)]
    refine (Checker.leave_of_le ?_).symm
    rw [Checker.depth_pop]
    omega

end Builder.Reads

end Elenchus
