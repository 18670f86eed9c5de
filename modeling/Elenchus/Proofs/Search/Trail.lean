import Elenchus.Search.Trail

/-!
# Partial assignments, table and trail

What the operations on a partial assignment do to its table and to its trail.  While the two are in
step (`InStep`) every question to the table is answered by the trail: a literal is true when it is
on the trail, false when its negation is, and open otherwise.  Making an open literal true keeps
them in step, and so does cutting the trail back.

The second half reads the status of a clause in the same way.
-/

namespace Elenchus.Search

namespace Trail

variable {t : Trail} {l m : Literal} {v : Nat}

/-! ## The table -/

theorem value?_start (count v : Nat) : (start count).value? v = none := by
  simp only [value?, start, Array.getD_eq_getD_getElem?]
  by_cases hv : v < count
  · simp [hv]
  · simp [hv]

@[simp] theorem size_assign (t : Trail) (l : Literal) :
    (t.assign l).values.size = t.values.size := Array.size_setIfInBounds

@[simp] theorem literals_assign (t : Trail) (l : Literal) :
    (t.assign l).literals = l :: t.literals := rfl

theorem value?_assign (hlt : l.var < t.values.size) :
    (t.assign l).value? v = if v = l.var then some l.positive else t.value? v := by
  simp only [value?, assign, Array.getD_eq_getD_getElem?, Array.getElem?_setIfInBounds]
  by_cases hv : v = l.var
  · subst hv
    simp [hlt]
  · rw [if_neg (fun h => hv h.symm), if_neg hv]

/-- A variable outside of the table has no value. -/
theorem lt_size_of_value? {b : Bool} (h : t.value? v = some b) : v < t.values.size := by
  apply Nat.lt_of_not_le
  intro hge
  rw [value?, Array.getD_eq_getD_getElem?, Array.getElem?_eq_none hge] at h
  cases h

/-- The values of the variables of a list are erased, no others. -/
theorem getD_erase (values : Array (Option Bool)) (ls : List Literal) (v : Nat) :
    (ls.foldl (fun values l => values.setIfInBounds l.var none) values).getD v none =
      if v ∈ ls.map Literal.var then none else values.getD v none := by
  induction ls generalizing values with
  | nil => rfl
  | cons l ls ih =>
      rw [List.foldl_cons, ih, List.map_cons]
      by_cases htail : v ∈ ls.map Literal.var
      · rw [if_pos htail, if_pos (List.mem_cons_of_mem _ htail)]
      · rw [if_neg htail]
        simp only [Array.getD_eq_getD_getElem?, Array.getElem?_setIfInBounds]
        by_cases hv : v = l.var
        · subst hv
          rw [if_pos rfl, if_pos List.mem_cons_self]
          split <;> rfl
        · rw [if_neg (fun h => hv h.symm), if_neg (by simp [hv, htail])]

theorem size_erase (values : Array (Option Bool)) (ls : List Literal) :
    (ls.foldl (fun values l => values.setIfInBounds l.var none) values).size = values.size := by
  induction ls generalizing values with
  | nil => rfl
  | cons l ls ih => rw [List.foldl_cons, ih, Array.size_setIfInBounds]

@[simp] theorem size_undo (t : Trail) (length : Nat) :
    (t.undo length).values.size = t.values.size := size_erase _ _

/-- The trail is cut where the part to keep begins. -/
theorem literals_undo {inner outer : List Literal} (h : t.literals = inner ++ outer) :
    (t.undo outer.length).literals = outer := by
  simp [undo, Trail.length, h]

theorem value?_undo {inner outer : List Literal} (h : t.literals = inner ++ outer) :
    (t.undo outer.length).value? v = if v ∈ inner.map Literal.var then none else t.value? v := by
  have htake : t.literals.take (t.length - outer.length) = inner := by
    simp [Trail.length, h]
  simp only [value?, undo, htake]
  exact getD_erase _ _ _

/-- Making an open literal true leaves one open variable less. -/
theorem unvalued_assign (hfree : t.value? l.var = none) (hlt : l.var < t.values.size) :
    (t.assign l).unvalued < t.unvalued := by
  have hnone : t.values[l.var] = none := by
    rw [value?, Array.getD_eq_getD_getElem?, Array.getElem?_eq_getElem hlt] at hfree
    exact hfree
  have hpos : 0 < t.values.count none :=
    Array.count_pos_iff.mpr (hnone ▸ Array.getElem_mem hlt)
  rw [unvalued, unvalued, assign, Array.setIfInBounds_def, dif_pos hlt, Array.count_set, hnone,
    if_pos (beq_self_eq_true _),
    if_neg (show ¬(some l.positive == none) = true from Bool.false_ne_true)]
  omega

/-! ## Table and trail in step -/

theorem inStep_start (count : Nat) : (start count).InStep := by
  refine ⟨?_, List.nodup_nil⟩
  intro v b
  rw [value?_start]
  constructor
  · intro h
    cases h
  · intro h
    exact absurd h List.not_mem_nil

namespace InStep

/-- A variable is open exactly when the trail does not have it. -/
theorem value?_eq_none (h : t.InStep) : t.value? v = none ↔ v ∉ t.literals.map Literal.var := by
  constructor
  · intro hnone hmem
    obtain ⟨⟨w, b⟩, hl, rfl⟩ := List.mem_map.mp hmem
    rw [(h.1 w b).mpr hl] at hnone
    cases hnone
  · intro hnot
    cases hv : t.value? v with
    | none => rfl
    | some b => exact absurd (List.mem_map.mpr ⟨_, (h.1 v b).mp hv, rfl⟩) hnot

/-- Making an open literal true keeps table and trail in step. -/
theorem assign (h : t.InStep) (hfree : t.value? l.var = none) (hlt : l.var < t.values.size) :
    (t.assign l).InStep := by
  have hnew := h.value?_eq_none.mp hfree
  refine ⟨?_, List.nodup_cons.mpr ⟨hnew, h.2⟩⟩
  intro v b
  rw [value?_assign hlt, literals_assign, List.mem_cons]
  by_cases hv : v = l.var
  · subst hv
    rw [if_pos rfl]
    constructor
    · rintro ⟨⟩
      exact Or.inl rfl
    · rintro (hl | hmem)
      · exact congrArg some (congrArg Literal.positive hl).symm
      · exact absurd (List.mem_map.mpr ⟨_, hmem, rfl⟩) hnew
  · rw [if_neg hv, h.1]
    constructor
    · exact Or.inr
    · rintro (hl | hmem)
      · exact absurd (congrArg Literal.var hl) hv
      · exact hmem

/-- Cutting the trail back keeps table and trail in step. -/
theorem undo (h : t.InStep) {inner outer : List Literal} (hsplit : t.literals = inner ++ outer) :
    (t.undo outer.length).InStep := by
  have hnodup := h.2
  rw [hsplit, List.map_append, List.nodup_append] at hnodup
  obtain ⟨_, houter, hdisjoint⟩ := hnodup
  refine ⟨?_, by rw [literals_undo hsplit]; exact houter⟩
  intro v b
  rw [value?_undo hsplit, literals_undo hsplit]
  by_cases hv : v ∈ inner.map Literal.var
  · rw [if_pos hv]
    constructor
    · intro hnone
      cases hnone
    · intro hmem
      exact absurd rfl (hdisjoint v hv v (List.mem_map.mpr ⟨_, hmem, rfl⟩))
  · rw [if_neg hv, h.1, hsplit, List.mem_append]
    constructor
    · rintro (hmem | hmem)
      · exact absurd (List.mem_map.mpr ⟨_, hmem, rfl⟩) hv
      · exact hmem
    · exact Or.inr

/-! ## Literals -/

theorem truth?_eq_true (h : t.InStep) : t.truth? l = some true ↔ l ∈ t.literals := by
  rw [← h.1 l.var l.positive, truth?]
  cases t.value? l.var <;> simp

theorem truth?_eq_false (h : t.InStep) : t.truth? l = some false ↔ l.negate ∈ t.literals := by
  rw [← h.truth?_eq_true, truth?, truth?, Literal.var_negate, Literal.negate]
  cases t.value? l.var with
  | none => simp
  | some b => cases b <;> cases l.positive <;> simp

theorem truth?_eq_none : t.truth? l = none ↔ t.value? l.var = none := by
  rw [truth?, Option.map_eq_none_iff]

/-- A literal that is neither on the trail nor refuted there is open. -/
theorem mem_or_negate_mem (h : t.InStep) (hvalue : t.truth? l ≠ none) :
    l ∈ t.literals ∨ l.negate ∈ t.literals := by
  rw [← h.truth?_eq_true, ← h.truth?_eq_false]
  cases hl : t.truth? l with
  | none => exact absurd hl hvalue
  | some b => cases b <;> simp

end InStep

/-! ## Clauses -/

variable {c : Clause}

theorem satisfies_iff (h : t.InStep) : t.satisfies c = true ↔ ∃ l ∈ c.literals, l ∈ t.literals := by
  simp only [satisfies, List.any_eq_true, decide_eq_true_eq, h.truth?_eq_true]

theorem mem_unassigned : l ∈ t.unassigned c ↔ l ∈ c.literals ∧ t.value? l.var = none := by
  rw [unassigned, List.mem_filter, decide_eq_true_eq, InStep.truth?_eq_none]

/-- No literal of a clause that is not satisfied is on the trail. -/
theorem not_mem_of_not_satisfies (h : t.InStep) (hc : t.satisfies c = false) :
    ∀ m ∈ c.literals, m ∉ t.literals := by
  intro m hm hmem
  rw [(satisfies_iff h).mpr ⟨m, hm, hmem⟩] at hc
  cases hc

/-- The literals of a clause that is not satisfied are open or refuted. -/
theorem negate_mem_of_not_satisfies (h : t.InStep) (hc : t.satisfies c = false)
    (hl : l ∈ c.literals) (hopen : l ∉ t.unassigned c) : l.negate ∈ t.literals := by
  have hvalue : t.truth? l ≠ none := fun hnone =>
    hopen (mem_unassigned.mpr ⟨hl, InStep.truth?_eq_none.mp hnone⟩)
  rcases h.mem_or_negate_mem hvalue with hmem | hmem
  · exact absurd hmem (not_mem_of_not_satisfies h hc l hl)
  · exact hmem

/-- A clause that is unit has one open literal, and all others are refuted. -/
theorem status_eq_unit (h : t.InStep) (hc : t.status c = .unit l) :
    l ∈ c.literals ∧ t.value? l.var = none ∧ (∀ m ∈ c.literals, m ∉ t.literals) ∧
      ∀ m ∈ c.literals, m ≠ l → m.negate ∈ t.literals := by
  unfold status at hc
  split at hc
  · cases hc
  · rename_i hsat
    have hsat : t.satisfies c = false := Bool.eq_false_iff.mpr hsat
    split at hc
    · cases hc
    · rename_i k hopen
      cases hc
      have hl : l ∈ t.unassigned c := hopen ▸ List.mem_singleton_self l
      refine ⟨(mem_unassigned.mp hl).1, (mem_unassigned.mp hl).2,
        not_mem_of_not_satisfies h hsat, ?_⟩
      intro m hm hne
      exact negate_mem_of_not_satisfies h hsat hm (by rw [hopen, List.mem_singleton]; exact hne)
    · cases hc

/-- All literals of a clause that is falsified are refuted. -/
theorem status_eq_falsified (h : t.InStep) (hc : t.status c = .falsified) :
    (∀ m ∈ c.literals, m ∉ t.literals) ∧ ∀ m ∈ c.literals, m.negate ∈ t.literals := by
  unfold status at hc
  split at hc
  · cases hc
  · rename_i hsat
    have hsat : t.satisfies c = false := Bool.eq_false_iff.mpr hsat
    split at hc
    · rename_i hopen
      refine ⟨not_mem_of_not_satisfies h hsat, fun m hm =>
        negate_mem_of_not_satisfies h hsat hm ?_⟩
      rw [hopen]
      exact List.not_mem_nil
    · cases hc
    · cases hc

theorem status_eq_satisfied (hc : t.status c = .satisfied) : t.satisfies c = true := by
  unfold status at hc
  split at hc
  · assumption
  · split at hc <;> cases hc

/-- A clause that is undecided has an open literal beside any other. -/
theorem status_eq_undecided (hc : t.status c = .undecided) (l : Literal) :
    ∃ m ∈ c.literals, m ≠ l ∧ t.value? m.var = none := by
  have hnodup : (t.unassigned c).Nodup := c.ascending.nodup.filter _
  unfold status at hc
  split at hc
  · cases hc
  · split at hc
    · cases hc
    · cases hc
    · rename_i hnotNil hnotSingle
      match hopen : t.unassigned c with
      | [] => exact absurd hopen hnotNil
      | [k] => exact absurd hopen (hnotSingle k)
      | k :: m :: _ =>
          rw [hopen] at hnodup
          have hne : k ≠ m := fun hkm =>
            (List.nodup_cons.mp hnodup).1 (hkm ▸ List.mem_cons_self)
          have hmem : k ∈ t.unassigned c ∧ m ∈ t.unassigned c := by simp [hopen]
          obtain ⟨⟨hk, hkopen⟩, hm, hmopen⟩ := hmem.imp mem_unassigned.mp mem_unassigned.mp
          by_cases hkl : k = l
          · exact ⟨m, hm, fun hml => hne (hkl.trans hml.symm), hmopen⟩
          · exact ⟨k, hk, hkl, hkopen⟩

/-- A clause is satisfied, or falsified, or has an open literal. -/
theorem exists_unassigned (hsat : t.satisfies c = false) (hc : t.status c ≠ .falsified) :
    ∃ l, l ∈ t.unassigned c := by
  cases hopen : t.unassigned c with
  | nil => exact absurd (by simp [status, hsat, hopen]) hc
  | cons l _ => exact ⟨l, List.mem_cons_self⟩

/-- A satisfied clause stays satisfied when one more literal is made true. -/
theorem satisfies_mono {t' : Trail} (h : t.InStep) (h' : t'.InStep)
    (hsub : ∀ k ∈ t.literals, k ∈ t'.literals) (hc : t.satisfies c = true) :
    t'.satisfies c = true := by
  obtain ⟨l, hl, hmem⟩ := (satisfies_iff h).mp hc
  exact (satisfies_iff h').mpr ⟨l, hl, hsub l hmem⟩

/-- The completed assignment has the values of the trail, and makes all other variables false. -/
theorem ofValues_model (t : Trail) (v : Nat) :
    Assignment.ofValues t.model v = (t.value? v).getD false := by
  simp only [Assignment.ofValues, model, value?, List.getD_eq_getElem?_getD, List.getElem?_map,
    Array.getElem?_toList, Array.getD_eq_getD_getElem?]
  cases t.values[v]? <;> rfl

/-- The completed assignment satisfies the clauses that the trail satisfies. -/
theorem holds_model (hc : t.satisfies c = true) : c.holds (.ofValues t.model) = true := by
  simp only [satisfies, List.any_eq_true, decide_eq_true_eq] at hc
  obtain ⟨l, hl, htrue⟩ := hc
  refine List.any_eq_true.mpr ⟨l, hl, ?_⟩
  have hvalue : t.value? l.var = some l.positive := by
    rw [truth?] at htrue
    cases hv : t.value? l.var with
    | none => rw [hv] at htrue; cases htrue
    | some b => rw [hv] at htrue; simpa using htrue
  rw [Literal.holds, ofValues_model, hvalue]
  simp

theorem length_model (t : Trail) : t.model.length = t.values.size := by
  simp [model]

end Trail

end Elenchus.Search
