import Elenchus.Proofs.Formula.Occurrence
import Elenchus.Proofs.Formula.Parentheses

/-!
# Printed parentheses are needed

A text without one of the pairs that the printer writes around an operand is not read as the formula
any more (`Formula.parse_without_parens`).

Nothing has to be known of what it is read as instead.  Opening parentheses are counted: the tokens
that a formula is derived from at some level have at least as many as the formula printed at that
level (`Derives.openings_le`, by induction on the derivation), so no text that is read as the formula
has fewer than its printed text (`Formula.openings_le_of_parse`).  Where an operand is weaker than
its place asks for, the derivation can only have got there through parentheses.
-/

namespace Elenchus

/-! ## Counting -/

/-- How many parentheses a text opens. -/
def openings (text : String) : Nat := text.toList.count '('

@[simp] theorem openings_append (text text' : String) :
    openings (text ++ text') = openings text + openings text' := by
  simp [openings, String.toList_append, List.count_append]

/-- A token opens as many parentheses as its spelling. -/
theorem Token.Spelling.count_eq {t : Token} {w : List Char} (h : t.Spelling w) :
    w.count '(' = [t].count .openParen := by
  by_cases hopen : t = .openParen
  · subst hopen
    cases h with
    | sign hs =>
        rw [List.mem_singleton.mp hs]
        rfl
  by_cases hclose : t = .closeParen
  · subst hclose
    cases h with
    | sign hs =>
        rw [List.mem_singleton.mp hs]
        rfl
  rw [List.count_eq_zero.mpr fun hmem => (h.ne_paren hopen hclose _ hmem).1 rfl,
    List.count_eq_zero.mpr (by simpa using Ne.symm hopen)]

theorem Tiles.count_eq {pos : Nat} {cs : List Char} {ls : List Lexeme} (h : Tiles pos cs ls) :
    cs.count '(' = (ls.map (·.token)).count .openParen := by
  induction h with
  | nil => rfl
  | @blank pos c cs ls hc _ ih =>
      have hne : c ≠ '(' := by
        rintro rfl
        revert hc
        decide
      rw [List.count_cons_of_ne hne, ih]
  | @token pos t w cs ls hspelling _ ih =>
      rw [List.count_append, hspelling.count_eq, ih, List.map_cons, ← List.count_append]
      rfl

theorem Lexes.count_eq {cs : List Char} {ts : List Token} (h : Lexes cs ts) :
    cs.count '(' = ts.count .openParen := by
  obtain ⟨_, hread, rfl⟩ := h 0
  exact (tiles_of_lexemes hread).count_eq

/-! ## Derivations have as many as they need -/

namespace Formula

theorem openings_guarded (strength least : Nat) (text : String) :
    openings (guarded strength least text) = openings text + if strength < least then 1 else 0 := by
  unfold guarded
  split
  · simp only [openings_append]
    show 1 + _ + 0 = _
    omega
  · rfl

/-- A place that asks for less strength needs no more parentheses. -/
theorem openings_guarded_mono {strength least least' : Nat} (text : String) (h : least ≤ least') :
    openings (guarded strength least text) ≤ openings (guarded strength least' text) := by
  rw [openings_guarded, openings_guarded]
  split <;> split <;> omega

end Formula

namespace Grammar

open Formula

/-- A formula printed at a level opens no more parentheses than the tokens it is derived from. -/
theorem Derives.openings_le {level : Level} {ts : List Token} {f : Formula}
    (h : Derives level ts f) (hlegible : ∀ t ∈ ts, t.Legible) :
    openings (guarded f.strength level.strength f.text) ≤ ts.count .openParen := by
  induction h with
  | @atom ts text h => exact Nat.le_of_eq (h.lexes hlegible).count_eq
  | const value => cases value <;> exact Nat.zero_le _
  | @parens ts f _ ih =>
      have hinside := ih fun t ht => hlegible t (by simp [ht])
      rw [openings_guarded] at hinside ⊢
      rw [List.count_cons_self, List.count_append]
      split <;> omega
  | primary _ ih => exact Nat.le_trans (openings_guarded_mono _ (by decide)) (ih hlegible)
  | @not ts f _ ih =>
      have hbody := ih fun t ht => hlegible t (by simp [ht])
      have htext : openings (Formula.not f).text = openings (guarded f.strength 5 f.text) :=
        (openings_append _ _).trans (Nat.zero_add _)
      rw [List.count_cons_of_ne Token.noConfusion]
      exact Nat.le_trans (Nat.le_of_eq htext) hbody
  | operand c _ ih =>
      refine Nat.le_trans (openings_guarded_mono _ ?_) (ih hlegible)
      rw [strength_operandLevel]
      exact Nat.le_succ _
  | @binary c ts us f g _ _ ih ih' =>
      have hleft := ih fun t ht => hlegible t (by simp [ht])
      have hright := ih' fun t ht => hlegible t (by simp [ht])
      rw [strength_leftLevel] at hleft
      rw [strength_rightLevel] at hright
      have hsign : openings c.sign = 0 := by cases c <;> rfl
      have htext : openings (Formula.binary c f g).text =
          openings (guarded f.strength c.leftStrength f.text) +
            openings (guarded g.strength c.rightStrength g.text) := by
        simp only [Formula.text, openings_append, hsign]
        rfl
      have hown : openings (guarded c.strength c.strength (Formula.binary c f g).text) =
          openings (Formula.binary c f g).text := by
        rw [guarded, if_neg (Nat.lt_irrefl _)]
      show openings (guarded c.strength c.strength _) ≤ _
      rw [hown, htext, List.count_append, List.count_cons_of_ne Token.noConfusion]
      exact Nat.add_le_add hleft hright

end Grammar

namespace Formula

/-- No text that is read as a formula opens fewer parentheses than the printed one. -/
theorem openings_le_of_parse {text : String} {f : Formula} (h : parse text = .ok f) :
    openings f.text ≤ openings text := by
  obtain ⟨read, htokens, hread⟩ := parse_eq_ok_iff_ofTokens.mp h
  have hlegible : ∀ t ∈ read.lexemes.map (·.token), t.Legible :=
    List.forall_mem_map.mpr (legible_of_lexemes htokens)
  have hle := (ofTokens_eq_ok_iff.mp hread).1.openings_le hlegible
  rw [openings_guarded] at hle
  calc openings f.text ≤ (read.lexemes.map (·.token)).count .openParen := by omega
    _ = openings text := (tiles_of_lexemes htokens).count_eq.symm

/-! ## Printed operands -/

/-- An operand in the text of a formula, at any depth: what is printed before its place, the least
strength that the place asks for, and what is printed after it. -/
inductive HasOperand : Formula → String → Formula → Nat → String → Prop
  | body (f : Formula) : HasOperand (.not f) "¬" f 5 ""
  | left (c : Connective) (f g : Formula) :
      HasOperand (.binary c f g) "" f c.leftStrength
        (" " ++ c.sign ++ " " ++ guarded g.strength c.rightStrength g.text)
  | right (c : Connective) (f g : Formula) :
      HasOperand (.binary c f g) (guarded f.strength c.leftStrength f.text ++ " " ++ c.sign ++ " ")
        g c.rightStrength ""
  | within {f g h : Formula} {least least' : Nat} {before after before' after' : String} :
      HasOperand f before g least after → HasOperand g before' h least' after' →
      HasOperand f (before ++ (if g.strength < least then "(" else "") ++ before') h least'
        (after' ++ (if g.strength < least then ")" else "") ++ after)

theorem HasOperand.text_eq {f g : Formula} {least : Nat} {before after : String}
    (h : f.HasOperand before g least after) :
    f.text = before ++ guarded g.strength least g.text ++ after := by
  induction h with
  | body f => simp [text]
  | left c f g => simp [text, String.append_assoc]
  | right c f g => simp [text]
  | @within f g h least least' before after before' after' _ _ ih ih' =>
      rw [ih, ih', guarded]
      split <;> simp [String.append_assoc]

/-- The parentheses around an operand are there because it is weaker than its place asks for, and
the text without them is not read as the formula. -/
theorem parse_without_parens {f g : Formula} {least : Nat} {before after : String}
    (h : f.HasOperand before g least after) (hweak : g.strength < least) :
    f.text = before ++ "(" ++ g.text ++ ")" ++ after ∧
      parse (before ++ g.text ++ after) ≠ .ok f := by
  have htext : f.text = before ++ "(" ++ g.text ++ ")" ++ after := by
    rw [h.text_eq, guarded, if_pos hweak]
    simp only [String.append_assoc]
  refine ⟨htext, fun hread => ?_⟩
  have hle := openings_le_of_parse hread
  have hopen : openings "(" = 1 := rfl
  rw [htext] at hle
  simp only [openings_append, hopen] at hle
  omega

/-- The inner pair of `¬(p ∧ (q ∨ r))` cannot be left out. -/
theorem parse_without_parens_nested :
    let f : Formula := .not (.binary .and (.atom "p") (.binary .or (.atom "q") (.atom "r")))
    f.text = "¬(p ∧ (q ∨ r))" ∧ parse "¬(p ∧ q ∨ r)" ≠ .ok f := by
  intro f
  have hoperand : f.HasOperand "¬(p ∧ " (.binary .or (.atom "q") (.atom "r")) 5 ")" :=
    .within (.body _) (.right .and _ _)
  exact parse_without_parens hoperand (by decide)

end Formula

end Elenchus
