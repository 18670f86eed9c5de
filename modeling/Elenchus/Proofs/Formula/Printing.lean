import Elenchus.Proofs.Formula.Parsing
import Elenchus.Proofs.Formula.Tiling

/-!
# What is printed is read back

A formula that was read from some text is read again from the text it prints as
(`Formula.parse_text`).  The two token lists differ, by the parentheses that the printed text has no
need of, so the proof is about a third thing, the derivation: from the derivation of the first list
it builds the derivation of the printed one (`Derives.printed`, by induction on the first).

* The text of a term spells the tokens of the term (`Term.spells` and its family), as the names in
  it are words, which what stands next to them in the text does not lengthen.
* What stands at a level may stand wherever a looser level is asked for (`Derives.loosen`), and in
  parentheses anywhere (`Derives.placed`).  The printer puts the parentheses where the strengths of
  the two levels say so.
* The printed list opens no more parentheses than the one that was read.  A place that asks for
  less strength has no more of them (`Fits.enclosed_mono`), and the parentheses of the printed text
  are among those that stood there.
-/

namespace Elenchus

open Grammar

namespace Grammar

/-! ## Terms -/

/-- One more part of an argument, with a blank before the parts that follow. -/
theorem Pieces.spells_cons {first : String} {parts : List String} {ts us : List Token}
    (h : Pieces us parts) (hfirst : Spells first.toList ts)
    (hmore : Spells (" ".intercalate parts).toList us) :
    Spells (" ".intercalate (first :: parts)).toList (ts ++ us) := by
  by_cases hparts : parts = []
  · subst hparts
    rw [h.eq_nil, List.append_nil, String.intercalate_singleton]
    exact hfirst
  · rw [String.intercalate_cons_of_ne_nil hparts]
    simpa [String.toList_append] using hfirst.append_blank hmore

mutual

theorem Term.spells {ts : List Token} {text : String} (h : Term ts text)
    (hlegible : ∀ t ∈ ts, t.Legible) : Spells text.toList ts := by
  match h with
  | .name name =>
      exact spells_of_spelling (.name (hlegible (.name name) List.mem_cons_self name rfl))
  | .applied name h =>
      have hname := hlegible (.name name) List.mem_cons_self name rfl
      have hargs := h.spells fun t ht => hlegible t (by simp [ht])
      have hspells := (spells_of_spelling (.name hname)).append_parens hargs
      simpa [String.toList_append] using hspells

theorem Arguments.spells {ts : List Token} {args : List String} (h : Arguments ts args)
    (hlegible : ∀ t ∈ ts, t.Legible) : Spells (", ".intercalate args).toList ts := by
  match h with
  | .none => exact spells_nil
  | .some h => exact (h.spells hlegible).2

theorem ArgumentList.spells {ts : List Token} {args : List String} (h : ArgumentList ts args)
    (hlegible : ∀ t ∈ ts, t.Legible) :
    args ≠ [] ∧ Spells (", ".intercalate args).toList ts := by
  match h with
  | .last h hparts =>
      refine ⟨List.cons_ne_nil _ _, ?_⟩
      rw [String.intercalate_singleton]
      exact h.spells hlegible
  | .more h hparts hlist =>
      have hfirst := h.spells fun t ht => hlegible t (by simp [ht])
      obtain ⟨hne, hmore⟩ := hlist.spells fun t ht => hlegible t (by simp [ht])
      refine ⟨List.cons_ne_nil _ _, ?_⟩
      rw [String.intercalate_cons_of_ne_nil hne]
      simpa [String.toList_append] using hfirst.append_comma hmore

theorem Pieces.spells {ts : List Token} {parts : List String} (h : Pieces ts parts)
    (hlegible : ∀ t ∈ ts, t.Legible) : Spells (" ".intercalate parts).toList ts := by
  match h with
  | .nil => exact spells_nil
  | .term h h' =>
      have hfirst := h.spells fun t ht => hlegible t (by simp [ht])
      exact h'.spells_cons hfirst (h'.spells fun t ht => hlegible t (by simp [ht]))
  | .const value h =>
      have hmore := h.spells fun t ht => hlegible t (by simp [ht])
      exact h.spells_cons (spells_constantWord value) hmore
  | .compare op h =>
      have hmore := h.spells fun t ht => hlegible t (by simp [ht])
      exact h.spells_cons (spells_compare op) hmore

end

theorem Operand.spells {ts : List Token} {text : String} (h : Operand ts text)
    (hlegible : ∀ t ∈ ts, t.Legible) : Spells text.toList ts := by
  cases h with
  | term h => exact h.spells hlegible
  | const value => exact spells_constantWord value

theorem Atom.spells {ts : List Token} {text : String} (h : Atom ts text)
    (hlegible : ∀ t ∈ ts, t.Legible) : Spells text.toList ts := by
  cases h with
  | term h => exact h.spells hlegible
  | comparison op h h' =>
      have hleft := h.spells fun t ht => hlegible t (by simp [ht])
      have hright := h'.spells fun t ht => hlegible t (by simp [ht])
      have hspells := hleft.append_blank ((spells_compare op).append_blank hright)
      simpa [String.toList_append] using hspells

/-! ## Tighter levels -/

theorem Level.eq_of_strength {l l' : Level} (h : l.strength = l'.strength) : l = l' := by
  revert h
  rcases l with (_ | _ | _ | _) | _ | _ <;> rcases l' with (_ | _ | _ | _) | _ | _ <;>
    simp [Level.strength, Connective.strength]

theorem Level.strength_le (l : Level) : l.strength ≤ 6 := by
  rcases l with (_ | _ | _ | _) | _ | _ <;> decide

theorem Level.iff_le (l : Level) : (Level.chain .iff).strength ≤ l.strength := by
  rcases l with (_ | _ | _ | _) | _ | _ <;> decide

/-- What stands at a level may stand wherever a looser one is asked for. -/
theorem Derives.loosen {l l' : Level} {ts : List Token} {f : Formula} (h : Derives l ts f)
    (hle : l'.strength ≤ l.strength) : Derives l' ts f := by
  by_cases heq : l'.strength = l.strength
  · rw [Level.eq_of_strength heq]
    exact h
  · have hlt : l'.strength < l.strength := by omega
    match l' with
    | .primary => exact absurd (Nat.lt_of_lt_of_le hlt l.strength_le) (Nat.lt_irrefl 6)
    | .negation =>
        have hl : l = .primary := Level.eq_of_strength (Nat.le_antisymm l.strength_le hlt)
        subst hl
        exact .primary h
    | .chain c =>
        have hnext : (operandLevel c).strength ≤ l.strength := by
          rw [strength_operandLevel]
          exact hlt
        exact .operand c (h.loosen hnext)
termination_by 6 - l'.strength
decreasing_by
  rw [strength_operandLevel]
  cases c <;> decide

/-! ## Parentheses where they are needed -/

/-- Tokens in parentheses if the strength they stand for is below the one the place asks for. -/
def enclosed (strength least : Nat) (ts : List Token) : List Token :=
  if strength < least then .openParen :: (ts ++ [.closeParen]) else ts

theorem enclosed_zero (strength : Nat) (ts : List Token) : enclosed strength 0 ts = ts :=
  if_neg (Nat.not_lt_zero strength)

theorem enclosed_self (strength : Nat) (ts : List Token) : enclosed strength strength ts = ts :=
  if_neg (Nat.lt_irrefl strength)

theorem spells_guarded {text : String} {ts : List Token} (h : Spells text.toList ts)
    (strength least : Nat) :
    Spells (Formula.guarded strength least text).toList (enclosed strength least ts) := by
  unfold Formula.guarded enclosed
  split
  · simpa [String.toList_append] using h.parens
  · exact h

/-- The level at which a formula stands without parentheses. -/
def ownLevel : Formula → Level
  | .atom _ => .primary
  | .const _ => .primary
  | .not _ => .negation
  | .binary c _ _ => .chain c

theorem strength_ownLevel (f : Formula) : (ownLevel f).strength = f.strength := by
  cases f <;> rfl

theorem strength_leftLevel (c : Connective) : (leftLevel c).strength = c.leftStrength := by
  cases c <;> rfl

theorem strength_rightLevel (c : Connective) : (rightLevel c).strength = c.rightStrength := by
  cases c <;> rfl

theorem Derives.placed {ts : List Token} {f : Formula} (h : Derives (ownLevel f) ts f)
    (l : Level) : Derives l (enclosed f.strength l.strength ts) f := by
  unfold enclosed
  split
  · have hloose : Derives (.chain .iff) ts f := h.loosen (Level.iff_le _)
    exact hloose.parens.loosen l.strength_le
  · exact h.loosen (by rw [strength_ownLevel]; omega)

/-- A place that asks for less strength needs no more parentheses. -/
theorem Fits.enclosed_mono {n strength least least' : Nat} {ts : List Token}
    (h : Fits n (enclosed strength least ts)) (hts : Balanced ts) (hle : least' ≤ least) :
    Fits n (enclosed strength least' ts) := by
  unfold enclosed at *
  split at h
  · split
    · exact h
    · exact (hts.fits_parens.mp h).2.mono (Nat.le_succ n)
  · rw [if_neg (by omega)]
    exact h

/-! ## Printed tokens -/

/-- The tokens that a formula is printed in, where it stood as `ts` at some level: they are the
text of the formula, and no place that had room for `ts` lacks room for them. -/
structure Printed (level : Level) (ts : List Token) (f : Formula) (ps : List Token) : Prop where
  derives : Derives (ownLevel f) ps f
  spells : Spells f.text.toList ps
  fits : ∀ n, Fits n ts → Fits n (enclosed f.strength level.strength ps)

theorem Printed.loosen {l l' : Level} {ts ps : List Token} {f : Formula} (h : Printed l ts f ps)
    (hle : l'.strength ≤ l.strength) : Printed l' ts f ps :=
  ⟨h.derives, h.spells, fun n hn => (h.fits n hn).enclosed_mono h.derives.balanced hle⟩

theorem Derives.printed {level : Level} {ts : List Token} {f : Formula}
    (h : Derives level ts f) (hlegible : ∀ t ∈ ts, t.Legible) : ∃ ps, Printed level ts f ps := by
  induction h with
  | @atom ts text h =>
      exact ⟨ts, .atom h, h.spells hlegible, fun n hn => hn⟩
  | const value =>
      refine ⟨[.const value], .const value, ?_, fun n hn => hn⟩
      cases value <;> exact fun rest us _ h => Lexes.read 0 h rfl rfl
  | parens h ih =>
      obtain ⟨ps, hps⟩ := ih fun t ht => hlegible t (by simp [ht])
      refine ⟨ps, hps.derives, hps.spells, fun n hn => ?_⟩
      obtain ⟨hlt, hinside⟩ := h.balanced.fits_parens.mp hn
      have hfits := (hps.fits (n + 1) hinside).enclosed_mono hps.derives.balanced (Nat.zero_le _)
      rw [enclosed_zero] at hfits
      unfold enclosed
      split
      · exact hps.derives.balanced.fits_parens.mpr ⟨hlt, hfits⟩
      · exact hfits.mono (Nat.le_succ n)
  | primary h ih =>
      obtain ⟨ps, hps⟩ := ih hlegible
      exact ⟨ps, hps.loosen (by decide)⟩
  | @not ts f h ih =>
      obtain ⟨ps, hps⟩ := ih fun t ht => hlegible t (by simp [ht])
      refine ⟨_, .not (hps.derives.placed .negation), ?_, fun n hn => ?_⟩
      · have hspells : Spells _ (.not :: enclosed f.strength Level.negation.strength ps) :=
          (spells_guarded hps.spells f.strength 5).not
        simpa [Formula.text, String.toList_append] using hspells
      · exact (fits_plain fun _ => rfl).mpr (hps.fits n ((fits_plain fun _ => rfl).mp hn))
  | operand c h ih =>
      obtain ⟨ps, hps⟩ := ih hlegible
      exact ⟨ps, hps.loosen (by rw [strength_operandLevel]; exact Nat.le_succ _)⟩
  | @binary c ts us f g h h' ih ih' =>
      obtain ⟨ps, hps⟩ := ih fun t ht => hlegible t (by simp [ht])
      obtain ⟨qs, hqs⟩ := ih' fun t ht => hlegible t (by simp [ht])
      have hleft := hps.derives.placed (leftLevel c)
      have hright := hqs.derives.placed (rightLevel c)
      refine ⟨_, .binary c hleft hright, ?_, fun n hn => ?_⟩
      · have hspells := (spells_guarded hps.spells f.strength c.leftStrength).append_blank
          ((spells_connective c).append_blank
            (spells_guarded hqs.spells g.strength c.rightStrength))
        rw [strength_leftLevel, strength_rightLevel]
        simpa [Formula.text, String.toList_append] using hspells
      · obtain ⟨hn, hn'⟩ := h.balanced.fits_append.mp hn
        have hafter : Fits n (.connective c :: enclosed g.strength (rightLevel c).strength qs) :=
          (fits_plain fun _ => rfl).mpr (hqs.fits n ((fits_plain fun _ => rfl).mp hn'))
        show Fits n (enclosed c.strength c.strength _)
        rw [enclosed_self]
        exact hleft.balanced.fits_append.mpr ⟨hps.fits n hn, hafter⟩

end Grammar

namespace Formula

/-- A formula that was read is read again from its text. -/
theorem parse_text (text : String) (f : Formula) (h : parse text = .ok f) :
    parse f.text = .ok f := by
  obtain ⟨read, htokens, hread⟩ := parse_eq_ok_iff_ofTokens.mp h
  obtain ⟨hderives, hheight, hfits⟩ := ofTokens_eq_ok_iff.mp hread
  have hlegible : ∀ t ∈ read.lexemes.map (·.token), t.Legible := by
    intro t ht
    obtain ⟨l, hl, rfl⟩ := List.mem_map.mp ht
    exact legible_of_lexemes htokens l hl
  obtain ⟨ps, hps⟩ := hderives.printed hlegible
  have hlexes : Lexes (f.text.toList ++ []) (ps ++ []) := hps.spells [] [] delimits_nil lexes_nil
  rw [List.append_nil, List.append_nil] at hlexes
  obtain ⟨again, hagain, hmap⟩ := hlexes 0
  have hloose : Derives (.chain .iff) ps f := hps.derives.loosen (Level.iff_le _)
  have hroom := (hps.fits 0 hfits).enclosed_mono hps.derives.balanced (Nat.zero_le _)
  rw [enclosed_zero] at hroom
  rw [← hmap] at hloose hroom
  have hread : ofTokens ⟨f.text.toList, again.stop⟩ again.lexemes = .ok f :=
    ofTokens_eq_ok_iff.mpr ⟨hloose, hheight, hroom⟩
  exact parse_eq_ok_iff_ofTokens.mpr ⟨again, hagain, hread⟩

theorem parse_text_needlessParens :
    parse "(p & ((q)))" = .ok (.binary .and (.atom "p") (.atom "q")) ∧
      parse "p ∧ q" = .ok (.binary .and (.atom "p") (.atom "q")) := by
  have hp : Derives .primary [.name "p"] (.atom "p") := .atom (.term (.name "p"))
  have hq : Derives .primary [.name "q"] (.atom "q") := .atom (.term (.name "q"))
  have hinner : Derives .primary [.openParen, .openParen, .name "q", .closeParen, .closeParen]
      (.atom "q") :=
    ((hq.loosen (by decide)).parens.loosen (by decide)).parens
  have hjoined : Derives (.chain .and) [.name "p", .connective .and, .openParen, .openParen,
      .name "q", .closeParen, .closeParen] (.binary .and (.atom "p") (.atom "q")) :=
    .binary .and (hp.loosen (by decide)) (hinner.loosen (by decide))
  have hread : parse "(p & ((q)))" = .ok (.binary .and (.atom "p") (.atom "q")) := by
    refine parse_eq_ok_iff_ofTokens.mpr ⟨⟨[⟨.openParen, 0, 1⟩, ⟨.name "p", 1, 2⟩,
      ⟨.connective .and, 3, 4⟩, ⟨.openParen, 5, 6⟩, ⟨.openParen, 6, 7⟩, ⟨.name "q", 7, 8⟩,
      ⟨.closeParen, 8, 9⟩, ⟨.closeParen, 9, 10⟩, ⟨.closeParen, 10, 11⟩], 11⟩, rfl, ?_⟩
    refine ofTokens_eq_ok_iff.mpr ⟨?_, by decide, ?_⟩
    · exact (hjoined.loosen (by decide)).parens.loosen (by decide)
    · simp [fits_cons, fits_nil, openAfter, maxNesting]
  exact ⟨hread, parse_text _ _ hread⟩

end Formula

end Elenchus
