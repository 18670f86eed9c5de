import Mathlib.Data.List.Basic
import Elenchus.Proofs.Formula.Tiling

/-!
# Which parenthesis closes which

A closing parenthesis closes an opening one if the text between them is paired in itself
(`Paired`, `Closes`).  What is closed by nothing, or closes nothing, is said in these terms and
without a stack.

`pending` keeps the stack: the offsets of the parentheses that are open, innermost first.  It holds
the unclosed ones (`mem_pending_iff`), and where it is empty a closing parenthesis closes nothing
(`isUnopened_of_pending`).  The tokens of a text keep the same stack (`Tiles.pending_eq`).
-/

namespace Elenchus

/-- A text all of whose parentheses come in pairs. -/
inductive Paired : List Char → Prop
  | nil : Paired []
  | other {c : Char} {cs : List Char} : c ≠ '(' → c ≠ ')' → Paired cs → Paired (c :: cs)
  | parens {inside after : List Char} : Paired inside → Paired after →
      Paired ('(' :: (inside ++ ')' :: after))

/-- The parenthesis at `i` is closed by the one at `j`. -/
def Closes (source : List Char) (i j : Nat) : Prop :=
  ∃ before inside after, source = before ++ '(' :: (inside ++ ')' :: after) ∧ Paired inside ∧
    i = before.length ∧ j = i + inside.length + 1

/-- An opening parenthesis that none closes. -/
def IsUnclosed (source : List Char) (i : Nat) : Prop :=
  source[i]? = some '(' ∧ ∀ j, ¬Closes source i j

/-- A closing parenthesis that closes none. -/
def IsUnopened (source : List Char) (j : Nat) : Prop :=
  source[j]? = some ')' ∧ ∀ i, ¬Closes source i j

/-! ## The stack of a text -/

/-- The open parentheses after one more character, which stands at an offset. -/
def openedBy (opens : List Nat) (offset : Nat) (c : Char) : List Nat :=
  if c = '(' then offset :: opens else if c = ')' then opens.tail else opens

/-- The open parentheses after a text that starts at an offset, `opens` being those before it. -/
def pending (offset : Nat) (opens : List Nat) : List Char → List Nat
  | [] => opens
  | c :: cs => pending (offset + 1) (openedBy opens offset c) cs

section
variable {offset : Nat} {opens : List Nat} {cs ds : List Char}

theorem openedBy_other {c : Char} (hopen : c ≠ '(') (hclose : c ≠ ')') :
    openedBy opens offset c = opens := by
  rw [openedBy, if_neg hopen, if_neg hclose]

theorem pending_append :
    pending offset opens (cs ++ ds) = pending (offset + cs.length) (pending offset opens cs) ds := by
  induction cs generalizing offset opens with
  | nil => rfl
  | cons c cs ih =>
      have hoffset : offset + 1 + cs.length = offset + (c :: cs).length := by
        rw [List.length_cons]
        omega
      rw [List.cons_append, pending, ih, hoffset, pending]

theorem pending_other (h : ∀ c ∈ cs, c ≠ '(' ∧ c ≠ ')') : pending offset opens cs = opens := by
  induction cs generalizing offset with
  | nil => rfl
  | cons c cs ih =>
      obtain ⟨hc, hcs⟩ := List.forall_mem_cons.mp h
      rw [pending, openedBy_other hc.1 hc.2, ih hcs]

/-- Pairs leave the stack as it was. -/
theorem Paired.pending_eq (h : Paired cs) : pending offset opens cs = opens := by
  induction h generalizing offset opens with
  | nil => rfl
  | other hopen hclose _ ih => rw [pending, openedBy_other hopen hclose, ih]
  | parens _ _ ih ih' =>
      rw [pending, pending_append, ih, pending, ih']
      rfl

/-- What is open was open before, or it was opened in the text. -/
theorem of_mem_pending {i : Nat} (h : i ∈ pending offset opens cs) :
    i ∈ opens ∨ ∃ k, cs[k]? = some '(' ∧ i = offset + k := by
  induction cs generalizing offset opens with
  | nil => exact .inl h
  | cons c cs ih =>
      rcases ih h with hold | ⟨k, hk, rfl⟩
      · unfold openedBy at hold
        split at hold
        next hc =>
          rcases List.mem_cons.mp hold with rfl | hold
          · exact .inr ⟨0, by rw [hc]; rfl, rfl⟩
          · exact .inl hold
        next =>
          split at hold
          · exact .inl (List.mem_of_mem_tail hold)
          · exact .inl hold
      · exact .inr ⟨k + 1, hk, by omega⟩

/-- The innermost parenthesis was opened last. -/
theorem pairwise_pending (h : opens.Pairwise (· > ·)) (hlt : ∀ i ∈ opens, i < offset) :
    (pending offset opens cs).Pairwise (· > ·) := by
  induction cs generalizing offset opens with
  | nil => exact h
  | cons c cs ih =>
      refine ih ?_ fun i hi => ?_
      · unfold openedBy
        split
        · exact List.pairwise_cons.mpr ⟨hlt, h⟩
        · split
          · exact h.tail
          · exact h
      · unfold openedBy at hi
        split at hi
        · rcases List.mem_cons.mp hi with rfl | hi
          · exact Nat.lt_succ_self _
          · exact Nat.lt_succ_of_lt (hlt i hi)
        · split at hi
          · exact Nat.lt_succ_of_lt (hlt i (List.mem_of_mem_tail hi))
          · exact Nat.lt_succ_of_lt (hlt i hi)

end

/-- A text closes what was open before it, or it leaves it open. -/
theorem closes_or_leaves (cs : List Char) :
    (∃ inside after, cs = inside ++ ')' :: after ∧ Paired inside) ∨
      ∀ offset opens, ∃ more, pending offset opens cs = more ++ opens := by
  match cs with
  | [] => exact .inr fun _ _ => ⟨[], rfl⟩
  | c :: cs =>
      by_cases hclose : c = ')'
      · exact .inl ⟨[], cs, by rw [hclose]; rfl, .nil⟩
      have hrest := closes_or_leaves cs
      by_cases hopen : c = '('
      · subst hopen
        rcases hrest with ⟨inside, after, rfl, hinside⟩ | hleaves
        · -- The first parenthesis is closed, and the question is about what comes after.
          have hlt : after.length < ('(' :: (inside ++ ')' :: after)).length := by
            simp only [List.length_cons, List.length_append]
            omega
          rcases closes_or_leaves after with ⟨inside', after', rfl, hinside'⟩ | hleaves
          · refine .inl ⟨'(' :: (inside ++ ')' :: inside'), after', by simp, hinside.parens hinside'⟩
          · refine .inr fun offset opens => ?_
            rw [pending, pending_append, hinside.pending_eq, pending]
            exact hleaves _ _
        · refine .inr fun offset opens => ?_
          obtain ⟨more, hmore⟩ := hleaves (offset + 1) (offset :: opens)
          exact ⟨more ++ [offset], by rw [pending, List.append_assoc]; exact hmore⟩
      · rcases hrest with ⟨inside, after, rfl, hinside⟩ | hleaves
        · exact .inl ⟨c :: inside, after, rfl, .other hopen hclose hinside⟩
        · refine .inr fun offset opens => ?_
          rw [pending, openedBy_other hopen hclose]
          exact hleaves _ _
termination_by cs.length

/-! ## What the stack holds -/

section
variable {source : List Char} {i j : Nat}

theorem getElem?_append_cons {before after : List Char} {c : Char} :
    (before ++ c :: after)[before.length]? = some c := by
  simp

theorem exists_eq_append_of_getElem? {c : Char} (h : source[i]? = some c) :
    ∃ before after, source = before ++ c :: after ∧ i = before.length := by
  obtain ⟨hlt, hc⟩ := List.getElem?_eq_some_iff.mp h
  refine ⟨source.take i, source.drop (i + 1), ?_, ?_⟩
  · rw [← hc, ← List.drop_eq_getElem_cons hlt, List.take_append_drop]
  · rw [List.length_take, Nat.min_eq_left (Nat.le_of_lt hlt)]

theorem lt_length_of_mem_pending (h : i ∈ pending 0 [] source) : i < source.length := by
  rcases of_mem_pending h with hold | ⟨k, hk, rfl⟩
  · cases hold
  · rw [Nat.zero_add]
    exact (List.getElem?_eq_some_iff.mp hk).1

/-- What is left on the stack is what is not closed. -/
theorem mem_pending_iff : i ∈ pending 0 [] source ↔ IsUnclosed source i := by
  constructor
  · intro h
    refine ⟨?_, ?_⟩
    · rcases of_mem_pending h with hold | ⟨k, hk, rfl⟩
      · cases hold
      · rwa [Nat.zero_add]
    · rintro j ⟨before, inside, after, rfl, hinside, rfl, rfl⟩
      rw [pending_append, pending, pending_append, hinside.pending_eq, pending] at h
      rcases of_mem_pending h with hold | ⟨k, _, hk⟩
      · exact Nat.lt_irrefl _ (lt_length_of_mem_pending hold)
      · omega
  · rintro ⟨hopen, hnone⟩
    obtain ⟨before, after, rfl, rfl⟩ := exists_eq_append_of_getElem? hopen
    rcases closes_or_leaves after with ⟨inside, after, rfl, hinside⟩ | hleaves
    · exact (hnone _ ⟨before, inside, after, rfl, hinside, rfl, rfl⟩).elim
    · obtain ⟨more, hmore⟩ := hleaves (before.length + 1) (before.length :: pending 0 [] before)
      rw [pending_append, Nat.zero_add, pending, openedBy, if_pos rfl, hmore]
      exact List.mem_append_right _ List.mem_cons_self

/-- The top of the stack is the last of what is not closed. -/
theorem isUnclosed_of_pending {outer : List Nat} (h : pending 0 [] source = i :: outer) :
    IsUnclosed source i ∧ ∀ k, IsUnclosed source k → k ≤ i := by
  have hpairwise : (pending 0 [] source).Pairwise (· > ·) :=
    pairwise_pending .nil (List.forall_mem_nil _)
  refine ⟨mem_pending_iff.mp (h ▸ List.mem_cons_self), fun k hk => ?_⟩
  have hmem := mem_pending_iff.mpr hk
  rw [h] at hmem hpairwise
  rcases List.mem_cons.mp hmem with rfl | hmem
  · exact Nat.le_refl _
  · exact Nat.le_of_lt ((List.pairwise_cons.mp hpairwise).1 k hmem)

/-- Where nothing is open, nothing is closed. -/
theorem isUnopened_of_pending {before after : List Char} (h : pending 0 [] before = []) :
    IsUnopened (before ++ ')' :: after) before.length := by
  refine ⟨getElem?_append_cons, ?_⟩
  rintro i ⟨before', inside, after', heq, hinside, rfl, hlength⟩
  have heq : before ++ ')' :: after = (before' ++ '(' :: inside) ++ ')' :: after' := by
    rw [heq, List.append_assoc, List.cons_append]
  have hlength : before.length = (before' ++ '(' :: inside).length := by
    rw [hlength, List.length_append, List.length_cons]
    omega
  obtain ⟨rfl, _⟩ := List.append_inj heq hlength
  rw [pending_append, pending, hinside.pending_eq] at h
  cases h

end

/-! ## The stack of the tokens -/

/-- The open parentheses after one more token. -/
def openedByToken (opens : List Nat) (l : Lexeme) : List Nat :=
  match l.token with
  | .openParen => l.start :: opens
  | .closeParen => opens.tail
  | _ => opens

/-- The open parentheses after some tokens, `opens` being those before them. -/
def openedByTokens (opens : List Nat) (ls : List Lexeme) : List Nat := ls.foldl openedByToken opens

theorem openedByTokens_append {opens : List Nat} {ls ms : List Lexeme} :
    openedByTokens opens (ls ++ ms) = openedByTokens (openedByTokens opens ls) ms :=
  List.foldl_append

/-- Only the two parentheses are written with parentheses. -/
theorem Token.Spelling.ne_paren {t : Token} {w : List Char} (h : t.Spelling w)
    (hopen : t ≠ .openParen) (hclose : t ≠ .closeParen) : ∀ c ∈ w, c ≠ '(' ∧ c ≠ ')' := by
  cases h with
  | sign hs =>
      have hsigns : ∀ s ∈ t.signs, (s.toList.all fun c => decide (c ≠ '(' ∧ c ≠ ')')) = true := by
        match t with
        | .openParen => exact absurd rfl hopen
        | .closeParen => exact absurd rfl hclose
        | .name _ => exact List.forall_mem_nil _
        | .not | .comma => decide
        | .connective c => cases c <;> decide
        | .compare op => cases op <;> decide
        | .const value => cases value <;> decide
      exact forall_of_all (hsigns _ hs)
  | name hname =>
      intro c hc
      constructor <;>
      · rintro rfl
        exact absurd (hname.chars _ hc) (by decide)

/-- A token opens and closes what the characters do that it is written with. -/
theorem Token.Spelling.pending_eq {t : Token} {w : List Char} (h : t.Spelling w) {pos stop : Nat}
    {opens : List Nat} : pending pos opens w = openedByToken opens ⟨t, pos, stop⟩ := by
  by_cases hopen : t = .openParen
  · subst hopen
    cases h with
    | sign hs =>
        rw [List.mem_singleton.mp hs]
        rfl
  by_cases hclose : t = .closeParen
  · subst hclose
    cases h with
    | sign hs =>
        rw [List.mem_singleton.mp hs]
        rfl
  rw [pending_other (h.ne_paren hopen hclose), openedByToken]
  split
  next ht => exact (hopen ht).elim
  next ht => exact (hclose ht).elim
  next => rfl

namespace Tiles

variable {pos : Nat} {cs : List Char} {ls ms : List Lexeme} {opens : List Nat}

theorem pending_eq (h : Tiles pos cs ls) : pending pos opens cs = openedByTokens opens ls := by
  induction h generalizing opens with
  | nil => rfl
  | @blank pos c cs ls hc _ ih =>
      have hother : c ≠ '(' ∧ c ≠ ')' := by
        constructor <;> (rintro rfl; revert hc; decide)
      rw [pending, openedBy_other hother.1 hother.2, ih]
  | token hspelling _ ih => rw [pending_append, hspelling.pending_eq, ih]; rfl

/-- The text before a token, and its own characters. -/
theorem split {l : Lexeme} (h : Tiles pos cs (ls ++ l :: ms)) :
    ∃ before w after, cs = before ++ (w ++ after) ∧ l.token.Spelling w ∧
      l.start = pos + before.length ∧ Tiles pos before ls := by
  generalize heq : ls ++ l :: ms = all at h
  induction h generalizing ls with
  | nil => simp at heq
  | @blank pos c cs all hc _ ih =>
      obtain ⟨before, w, after, rfl, hspelling, hstart, hbefore⟩ := ih heq
      refine ⟨c :: before, w, after, rfl, hspelling, ?_, hbefore.blank hc⟩
      rw [hstart, List.length_cons]
      omega
  | @token pos t w cs all hspelling _ ih =>
      cases ls with
      | nil =>
          cases heq
          exact ⟨[], w, cs, rfl, hspelling, rfl, .nil pos⟩
      | cons first ls =>
          cases heq
          obtain ⟨before, w', after, rfl, hspelling', hstart, hbefore⟩ := ih rfl
          refine ⟨w ++ before, w', after, by rw [List.append_assoc], hspelling', ?_,
            hbefore.token hspelling⟩
          rw [hstart, List.length_append]
          omega

end Tiles

end Elenchus
