import Elenchus.Proofs.Search.Log
import Mathlib.Order.Bounds.Basic

/-!
# What propagation computes

The unit rule makes a literal of a clause true when all others are refuted.  What follows by it from
the literals of a trail is a set that does not mention any order (`unitClosure`): it is the least
one that has the trail and is closed under the rule.

Propagation computes it, scanning the clauses in order and again and again (`propagate_closure`):

    it only adds what follows       a set closed under the rule has all that clauses force, so what
                                    is added is in the least one (`Forces.within`)
    it stops when nothing follows   a trail on which all clauses are quiet is closed under the rule
                                    itself (`Quiet.unitClosed`)
    it fails when it must           a clause falsified on the trail is falsified in the closure
-/

namespace Elenchus.Search

/-! ## The unit rule -/

/-- A set with every literal of a clause whose other literals are refuted in the set. -/
def UnitClosed (clauses : List Clause) (literals : Set Literal) : Prop :=
  ∀ c ∈ clauses, ∀ l ∈ c.literals, (∀ m ∈ c.literals, m ≠ l → m.negate ∈ literals) → l ∈ literals

/-- What follows from some literals by the unit rule. -/
inductive UnitFollows (clauses : List Clause) (given : List Literal) : Literal → Prop
  | given {l : Literal} : l ∈ given → UnitFollows clauses given l
  | unit {c : Clause} {l : Literal} : c ∈ clauses → l ∈ c.literals →
      (∀ m ∈ c.literals, m ≠ l → UnitFollows clauses given m.negate) → UnitFollows clauses given l

def unitClosure (clauses : List Clause) (given : List Literal) : Set Literal :=
  {l | UnitFollows clauses given l}

/-- No literal is in the set together with its negation. -/
def Consistent (literals : Set Literal) : Prop := ∀ l ∈ literals, l.negate ∉ literals

/-- All literals of the clause are refuted in the set. -/
def Falsifies (literals : Set Literal) (c : Clause) : Prop :=
  ∀ l ∈ c.literals, l.negate ∈ literals

section
variable {clauses : List Clause} {given : List Literal}

theorem unitClosed_unitClosure : UnitClosed clauses (unitClosure clauses given) :=
  fun _ hc _ hl hothers => .unit hc hl hothers

theorem unitClosure_subset {literals : Set Literal} (hclosed : UnitClosed clauses literals)
    (hgiven : ∀ l ∈ given, l ∈ literals) : unitClosure clauses given ⊆ literals := by
  intro l hl
  induction hl with
  | given hl => exact hgiven _ hl
  | unit hc hl _ ih => exact hclosed _ hc _ hl ih

theorem isLeast_unitClosure :
    IsLeast {literals | (∀ l ∈ given, l ∈ literals) ∧ UnitClosed clauses literals}
      (unitClosure clauses given) :=
  ⟨⟨fun _ => .given, unitClosed_unitClosure⟩, fun _ h => unitClosure_subset h.2 h.1⟩

/-- The rule does not look at the order of the clauses. -/
theorem unitClosure_perm {other : List Clause} (h : other.Perm clauses) :
    unitClosure other given = unitClosure clauses given := by
  have hclosed (literals : Set Literal) :
      UnitClosed other literals ↔ UnitClosed clauses literals := by
    simp only [UnitClosed, h.mem_iff]
  refine Set.Subset.antisymm ?_ ?_
  · exact unitClosure_subset ((hclosed _).mpr unitClosed_unitClosure) fun _ => .given
  · exact unitClosure_subset ((hclosed _).mp unitClosed_unitClosure) fun _ => .given

end

/-! ## What is forced -/

section
variable {options : Options} {clauses : List Clause} {s s' : State}

theorem Forces.fits (h : Forces options clauses.zipIdx s s') (hs : Fits clauses.zipIdx s.trail) :
    Fits clauses.zipIdx s'.trail := by
  induction h with
  | refl => exact hs
  | tail _ hforce ih =>
      cases hforce with
      | force hc hunit =>
          rw [State.trail_force]
          exact ih.force hc hunit

theorem Forces.suffix (h : Forces options clauses.zipIdx s s') :
    s.trail.literals <:+ s'.trail.literals := by
  induction h with
  | refl => exact List.suffix_refl _
  | tail _ hforce ih =>
      cases hforce with
      | force hc hunit =>
          rw [State.trail_force]
          exact ih.trans (List.suffix_cons ..)

/-- A set that is closed under the unit rule has what clauses force from its literals. -/
theorem Forces.within {literals : Set Literal} (h : Forces options clauses.zipIdx s s')
    (hs : Fits clauses.zipIdx s.trail) (hclosed : UnitClosed clauses literals)
    (hgiven : ∀ l ∈ s.trail.literals, l ∈ literals) : ∀ l ∈ s'.trail.literals, l ∈ literals := by
  induction h with
  | refl => exact hgiven
  | tail hforces hforce ih =>
      cases hforce with
      | @force c l hc hunit =>
          obtain ⟨hl, _, _, hothers⟩ :=
            Trail.status_eq_unit (Forces.fits hforces hs).inStep hunit
          have hnew : l ∈ literals := hclosed c.1 (List.fst_mem_of_mem_zipIdx hc) l hl
            fun m hm hne => ih _ (hothers m hm hne)
          rw [State.trail_force]
          exact List.forall_mem_cons.mpr ⟨hnew, ih⟩

end

section
variable {clauses : List Clause} {t : Trail}

/-- A table and a trail in step have no literal together with its negation. -/
theorem Trail.InStep.not_mem_negate (h : t.InStep) {l : Literal} (hl : l ∈ t.literals) :
    l.negate ∉ t.literals := by
  rw [← h.truth?_eq_true] at hl
  rw [← h.truth?_eq_false, hl]
  simp

/-- Besides any literal a clause that is quiet has one that is not refuted, unless that literal is a
true one of the clause. -/
theorem Quiet.exists_ne {c : Clause × Nat} (h : Quiet clauses.zipIdx t) (ht : t.InStep)
    (hc : c ∈ clauses.zipIdx) (l : Literal) :
    (∃ m ∈ c.1.literals, m ≠ l ∧ m.negate ∉ t.literals) ∨ l ∈ c.1.literals ∧ l ∈ t.literals := by
  rcases h c hc with hstatus | hstatus
  · obtain ⟨m, hm, htrue⟩ := (Trail.satisfies_iff ht).mp (Trail.status_eq_satisfied hstatus)
    by_cases hml : m = l
    · exact .inr (hml ▸ ⟨hm, htrue⟩)
    · exact .inl ⟨m, hm, hml, ht.not_mem_negate htrue⟩
  · obtain ⟨m, hm, hml, hopen⟩ := Trail.status_eq_undecided hstatus l
    refine .inl ⟨m, hm, hml, fun hrefuted => ?_⟩
    rw [← ht.truth?_eq_false, Trail.InStep.truth?_eq_none.mpr hopen] at hrefuted
    cases hrefuted

/-- A trail on which all clauses are quiet is closed under the unit rule. -/
theorem Quiet.unitClosed (h : Quiet clauses.zipIdx t) (ht : t.InStep) :
    UnitClosed clauses {l | l ∈ t.literals} := by
  intro c hc l _ hothers
  obtain ⟨position, hat⟩ := List.getElem?_of_mem hc
  rcases h.exists_ne ht (List.mk_mem_zipIdx_iff_getElem?.mpr hat) l with
    ⟨m, hm, hml, hopen⟩ | ⟨_, htrue⟩
  · exact absurd (hothers m hm hml) hopen
  · exact htrue

theorem Quiet.not_falsifies (h : Quiet clauses.zipIdx t) (ht : t.InStep) :
    ∀ c ∈ clauses, ¬Falsifies {l | l ∈ t.literals} c := by
  intro c hc hfalsifies
  obtain ⟨position, hat⟩ := List.getElem?_of_mem hc
  rcases h.exists_ne ht (List.mk_mem_zipIdx_iff_getElem?.mpr hat) ⟨0, true⟩ with
    ⟨m, hm, _, hopen⟩ | ⟨hl, htrue⟩
  · exact hopen (hfalsifies m hm)
  · exact ht.not_mem_negate htrue (hfalsifies _ hl)

end

/-! ## Propagation -/

/-- What a propagation answers. -/
structure PropagatesTo (options : Options) (clauses : List Clause) (s : State)
    (answer : State × Bool) : Prop where
  /-- The literals that were true stay so, below the new ones. -/
  kept : s.trail.literals <:+ answer.1.trail.literals
  fits : Fits clauses.zipIdx answer.1.trail
  succeeds : answer.2 = true ↔ Consistent (unitClosure clauses s.trail.literals) ∧
    ∀ c ∈ clauses, ¬Falsifies (unitClosure clauses s.trail.literals) c
  /-- The trail has become the closure. -/
  closure : answer.2 = true →
    {l | l ∈ answer.1.trail.literals} = unitClosure clauses s.trail.literals
  /-- All literals of some clause are false, and the log names it last. -/
  fails : answer.2 = false → ∃ c position, clauses[position]? = some c ∧
    (∀ l ∈ c.literals, answer.1.trail.truth? l = some false) ∧
    (options.logged = true → answer.1.events.head? = some (.conflict position))

section
variable {options : Options} {clauses : List Clause} {s s' : State}

theorem propagatesTo_true (hs : Fits clauses.zipIdx s.trail)
    (h : propagate options clauses.zipIdx s = (s', true)) :
    PropagatesTo options clauses s (s', true) := by
  obtain ⟨hfits, hquiet⟩ := quiet_propagate hs h
  cases propagates_propagate h with
  | done hforces =>
      have hclosure : {l | l ∈ s'.trail.literals} = unitClosure clauses s.trail.literals := by
        refine Set.Subset.antisymm ?_ ?_
        · exact hforces.within hs unitClosed_unitClosure fun _ => .given
        · exact unitClosure_subset (hquiet.unitClosed hfits.inStep)
            fun _ hl => hforces.suffix.subset hl
      refine ⟨hforces.suffix, hfits, ⟨fun _ => ?_, fun _ => rfl⟩, fun _ => hclosure, ?_⟩
      · rw [← hclosure]
        exact ⟨fun _ => hfits.inStep.not_mem_negate, hquiet.not_falsifies hfits.inStep⟩
      · exact fun hfalse => Bool.noConfusion hfalse

theorem propagatesTo_false (hs : Fits clauses.zipIdx s.trail)
    (h : propagate options clauses.zipIdx s = (s', false)) :
    PropagatesTo options clauses s (s', false) := by
  cases propagates_propagate h with
  | @failed s' c hforces hc hfalsified =>
      have hfits := hforces.fits hs
      obtain ⟨_, hrefuted⟩ := Trail.status_eq_falsified hfits.inStep hfalsified
      refine ⟨?_, ?_, ⟨fun htrue => absurd htrue Bool.false_ne_true, ?_⟩,
        fun htrue => absurd htrue Bool.false_ne_true, fun _ => ?_⟩
      · rw [State.trail_fail]
        exact hforces.suffix
      · rw [State.trail_fail]
        exact hfits
      · rintro ⟨_, hnone⟩
        refine absurd (fun l hl => ?_) (hnone c.1 (List.fst_mem_of_mem_zipIdx hc))
        exact hforces.within hs unitClosed_unitClosure (fun _ => .given) _ (hrefuted l hl)
      · refine ⟨c.1, c.2, List.mem_zipIdx_iff_getElem?.mp hc, fun l hl => ?_, fun hlogged => ?_⟩
        · rw [State.trail_fail]
          exact hfits.inStep.truth?_eq_false.mpr (hrefuted l hl)
        · rw [State.events_fail hlogged]
          rfl

theorem Fits.perm {other : List Clause} (h : Fits clauses.zipIdx s.trail)
    (hperm : other.Perm clauses) : Fits other.zipIdx s.trail := by
  refine ⟨h.inStep, fun c hc l hl => ?_⟩
  have hmem : c.1 ∈ clauses := hperm.mem_iff.mp (List.fst_mem_of_mem_zipIdx hc)
  obtain ⟨position, hat⟩ := List.getElem?_of_mem hmem
  exact h.bound (c.1, position) (List.mk_mem_zipIdx_iff_getElem?.mpr hat) l hl

/-- Propagation from a trail computes the least set that has its literals and is closed under the
unit rule: it succeeds exactly when that set has no contradiction and falsifies no clause, and the
trail is that set then.  When it fails some clause is false.  With the clauses in another order the
answer is the same, and the trail after a success too but for its order. -/
theorem propagate_closure (hs : Fits clauses.zipIdx s.trail) (options : Options) :
    IsLeast {literals | (∀ l ∈ s.trail.literals, l ∈ literals) ∧ UnitClosed clauses literals}
        (unitClosure clauses s.trail.literals) ∧
      PropagatesTo options clauses s (propagate options clauses.zipIdx s) ∧
      ∀ other : List Clause, other.Perm clauses →
        (propagate options other.zipIdx s).2 = (propagate options clauses.zipIdx s).2 ∧
          ((propagate options clauses.zipIdx s).2 = true →
            ∀ l, l ∈ (propagate options other.zipIdx s).1.trail.literals ↔
              l ∈ (propagate options clauses.zipIdx s).1.trail.literals) := by
  have hanswers {clauses : List Clause} (hs : Fits clauses.zipIdx s.trail) :
      PropagatesTo options clauses s (propagate options clauses.zipIdx s) := by
    rcases h : propagate options clauses.zipIdx s with ⟨s', _ | _⟩
    · exact propagatesTo_false hs h
    · exact propagatesTo_true hs h
  refine ⟨isLeast_unitClosure, hanswers hs, fun other hperm => ?_⟩
  have hother := hanswers (hs.perm hperm)
  have hthis := hanswers hs
  have hsame : (propagate options other.zipIdx s).2 = (propagate options clauses.zipIdx s).2 := by
    rw [Bool.eq_iff_iff, hother.succeeds, hthis.succeeds, unitClosure_perm hperm]
    simp only [hperm.mem_iff]
  refine ⟨hsame, fun htrue l => ?_⟩
  have hclosure := (hother.closure (hsame.trans htrue)).trans
    ((unitClosure_perm hperm).trans (hthis.closure htrue).symm)
  exact Set.ext_iff.mp hclosure l

end

/-- Two implications, the one that is used first standing last. -/
def twoImplications : List Clause :=
  [.ofList [⟨1, false⟩, ⟨2, true⟩], .ofList [⟨0, false⟩, ⟨1, true⟩]]

/-- The first implication is used in a second scan. -/
theorem propagate_closure_twoImplications :
    let s : State := ⟨(Trail.start 3).assign ⟨0, true⟩, [], []⟩
    Fits twoImplications.zipIdx s.trail ∧
      (propagate {} twoImplications.zipIdx s).1.trail.literals =
        [⟨2, true⟩, ⟨1, true⟩, ⟨0, true⟩] ∧
      {l | l ∈ ([⟨2, true⟩, ⟨1, true⟩, ⟨0, true⟩] : List Literal)} =
        unitClosure twoImplications [⟨0, true⟩] := by
  intro s
  have hfits : Fits twoImplications.zipIdx s.trail :=
    ⟨(Trail.inStep_start 3).assign (by decide) (by decide), by decide⟩
  have hliterals : (propagate {} twoImplications.zipIdx s).1.trail.literals =
      [⟨2, true⟩, ⟨1, true⟩, ⟨0, true⟩] := by decide +kernel
  have hclosure := (propagate_closure hfits {}).2.1.closure (by decide +kernel)
  rw [hliterals] at hclosure
  exact ⟨hfits, hliterals, hclosure⟩

end Elenchus.Search
