import Elenchus.Proofs.Clause.VarTable
import Elenchus.Proofs.Formula.Printing

/-!
# Atoms and what they were read from

An atom is kept as text, and a variable is given to that text.  What was written is the stretch of
tokens that the atom was read from (`Grammar.Occurs`, a derivation that collects them), and the text
says just as much: it is read as the tokens of the stretch (`Atom.lexes`), and tokens that stand for
an atom stand for no other (`Atom.text_eq`).  So two atoms share a variable exactly when they were
written with the same tokens, whichever spellings and white space were chosen
(`Formula.parse_identifies_atoms`).
-/

namespace Elenchus

/-- An atom, with the tokens it was read from. -/
structure Occurrence where
  text : String
  stretch : List Lexeme

namespace Grammar

open Reading

/-- The formula is derived from the tokens, and these are its atoms in reading order, each with the
tokens it is derived from.  The rules are those of `Derives`, one by one. -/
inductive Occurs : Level → List Lexeme → Formula → List Occurrence → Prop
  | atom {ls : List Lexeme} {text : String} : Atom (ls.map (·.token)) text →
      Occurs .primary ls (.atom text) [⟨text, ls⟩]
  | const {l : Lexeme} (value : Bool) : l.token = .const value →
      Occurs .primary [l] (.const value) []
  | parens {l close : Lexeme} {ls : List Lexeme} {f : Formula} {os : List Occurrence} :
      l.token = .openParen → close.token = .closeParen → Occurs (.chain .iff) ls f os →
      Occurs .primary (l :: (ls ++ [close])) f os
  | primary {ls : List Lexeme} {f : Formula} {os : List Occurrence} : Occurs .primary ls f os →
      Occurs .negation ls f os
  | not {l : Lexeme} {ls : List Lexeme} {f : Formula} {os : List Occurrence} : l.token = .not →
      Occurs .negation ls f os → Occurs .negation (l :: ls) (.not f) os
  | operand (c : Connective) {ls : List Lexeme} {f : Formula} {os : List Occurrence} :
      Occurs (operandLevel c) ls f os → Occurs (.chain c) ls f os
  | binary (c : Connective) {l : Lexeme} {ls ms : List Lexeme} {f g : Formula}
      {os qs : List Occurrence} : l.token = .connective c → Occurs (leftLevel c) ls f os →
      Occurs (rightLevel c) ms g qs →
      Occurs (.chain c) (ls ++ l :: ms) (.binary c f g) (os ++ qs)

section
variable {level : Level} {ls : List Lexeme} {f : Formula} {os : List Occurrence}

/-- Whatever is derived is derived from somewhere. -/
theorem Derives.exists_occurs {ts : List Token} (h : Derives level ts f) :
    ∀ ls : List Lexeme, ls.map (·.token) = ts → ∃ os, Occurs level ls f os := by
  induction h with
  | atom h =>
      rintro ls rfl
      exact ⟨_, .atom h⟩
  | const value =>
      intro ls hls
      obtain ⟨l, rfl, hl⟩ := List.map_eq_singleton_iff.mp hls
      exact ⟨[], .const value hl⟩
  | parens _ ih =>
      intro ls hls
      obtain ⟨l, inside, close, rfl, hl, hinside, hclose⟩ := map_eq_parens hls
      obtain ⟨os, hos⟩ := ih inside hinside
      exact ⟨os, hos.parens hl hclose⟩
  | primary _ ih =>
      intro ls hls
      obtain ⟨os, hos⟩ := ih ls hls
      exact ⟨os, hos.primary⟩
  | not _ ih =>
      intro ls hls
      obtain ⟨l, after, rfl, hl, hafter⟩ := List.map_eq_cons_iff.mp hls
      obtain ⟨os, hos⟩ := ih after hafter
      exact ⟨os, hos.not hl⟩
  | operand c _ ih =>
      intro ls hls
      obtain ⟨os, hos⟩ := ih ls hls
      exact ⟨os, .operand c hos⟩
  | binary c _ _ ih ih' =>
      intro ls hls
      obtain ⟨first, after, rfl, hfirst, hafter⟩ := List.map_eq_append_iff.mp hls
      obtain ⟨l, second, rfl, hl, hsecond⟩ := List.map_eq_cons_iff.mp hafter
      obtain ⟨os, hos⟩ := ih first hfirst
      obtain ⟨qs, hqs⟩ := ih' second hsecond
      exact ⟨os ++ qs, .binary c hl hos hqs⟩

theorem Occurs.texts (h : Occurs level ls f os) : os.map (·.text) = f.atomOccurrences := by
  induction h with
  | atom => rfl
  | const => rfl
  | parens _ _ _ ih => exact ih
  | primary _ ih => exact ih
  | not _ _ ih => exact ih
  | operand c _ ih => exact ih
  | binary c _ _ _ ih ih' => rw [List.map_append, ih, ih', Formula.atomOccurrences]

theorem Occurs.atom_of_mem (h : Occurs level ls f os) :
    ∀ o ∈ os, Atom (o.stretch.map (·.token)) o.text := by
  induction h with
  | atom h => exact List.forall_mem_singleton.mpr h
  | const => exact List.forall_mem_nil _
  | parens _ _ _ ih => exact ih
  | primary _ ih => exact ih
  | not _ _ ih => exact ih
  | operand c _ ih => exact ih
  | binary c _ _ _ ih ih' => exact List.forall_mem_append.mpr ⟨ih, ih'⟩

end

/-! ## Places of atoms -/

/-- The stretch of an atom is among the tokens, and where it ends an atom may end. -/
def StandsAmong (o : Occurrence) (ls : List Lexeme) : Prop :=
  ∃ before after, ls = before ++ (o.stretch ++ after) ∧
    ∀ rest, Stops .primary rest → Stops .primary (after ++ rest)

section
variable {o : Occurrence} {ls : List Lexeme}

theorem StandsAmong.prepend (h : StandsAmong o ls) (ms : List Lexeme) :
    StandsAmong o (ms ++ ls) := by
  obtain ⟨before, after, rfl, hafter⟩ := h
  exact ⟨ms ++ before, after, (List.append_assoc ..).symm, hafter⟩

theorem StandsAmong.append (h : StandsAmong o ls) {ms : List Lexeme}
    (hms : ∀ rest, Stops .primary (ms ++ rest)) : StandsAmong o (ls ++ ms) := by
  obtain ⟨before, after, rfl, hafter⟩ := h
  refine ⟨before, after ++ ms, by simp only [List.append_assoc], fun rest _ => ?_⟩
  rw [List.append_assoc]
  exact hafter _ (hms rest)

end

theorem Occurs.standsAmong {level : Level} {ls : List Lexeme} {f : Formula}
    {os : List Occurrence} (h : Occurs level ls f os) : ∀ o ∈ os, StandsAmong o ls := by
  induction h with
  | @atom ls text =>
      refine List.forall_mem_singleton.mpr ⟨[], [], ?_, fun _ hrest => hrest⟩
      rw [List.nil_append, List.append_nil]
  | const => exact List.forall_mem_nil _
  | @parens l close ls f os _ hclose _ ih =>
      exact fun o ho => ((ih o ho).append fun rest => stops_close hclose).prepend [l]
  | primary _ ih => exact ih
  | @not l ls f os _ _ ih => exact fun o ho => (ih o ho).prepend [l]
  | operand c _ ih => exact ih
  | @binary c l ls ms f g os qs hl _ _ ih ih' =>
      refine List.forall_mem_append.mpr ⟨fun o ho => ?_, fun o ho => ?_⟩
      · exact (ih o ho).append fun rest => stops_connective hl (by cases c <;> decide)
      · exact ((ih' o ho).prepend [l]).prepend ls

/-! ## Text and tokens -/

/-- Tokens that stand for an atom stand for no other. -/
theorem Atom.text_eq {ts : List Token} {text text' : String} {ls : List Lexeme}
    (h : Atom ts text) (h' : Atom ts text') (hls : ls.map (·.token) = ts) (hfits : Fits 0 ts) :
    text = text' := by
  have hread : Reads (Reading.atom ⟨[], 0⟩ [] (ls ++ [])) (.atom text) [] :=
    reads_of_atom h hls hfits stops_nil
  have hread' : Reads (Reading.atom ⟨[], 0⟩ [] (ls ++ [])) (.atom text') [] :=
    reads_of_atom h' hls hfits stops_nil
  obtain ⟨_, hanswer⟩ := hread
  obtain ⟨_, hanswer'⟩ := hread'
  cases hanswer.symm.trans hanswer'
  rfl

/-- The text of an atom is read as the tokens that the atom is derived from. -/
theorem Atom.lexes {ts : List Token} {text : String} (h : Atom ts text)
    (hlegible : ∀ t ∈ ts, t.Legible) : Lexes text.toList ts := by
  have hlexes := h.spells hlegible [] [] delimits_nil lexes_nil
  rwa [List.append_nil, List.append_nil] at hlexes

end Grammar

/-! ## Variables of atoms -/

open Grammar Reading

/-- What the stretch of an atom says of it, where the atom was read from a text. -/
structure Occurrence.Faithful (o : Occurrence) (source : List Char) : Prop where
  /-- At its place, and with as many parentheses open as are open there, the reader takes the stretch
  and answers with the atom. -/
  read : ∃ before after stop, tokenize source = .ok ⟨before ++ (o.stretch ++ after), stop⟩ ∧
    ∀ opens, opens.length = unclosed (before.map (·.token)) →
      Reads (Reading.atom ⟨source, stop⟩ opens (o.stretch ++ after)) (.atom o.text) after
  /-- The text of the atom is read as the tokens of the stretch. -/
  lexed : ∃ again, tokenize o.text.toList = .ok again ∧
    again.lexemes.map (·.token) = o.stretch.map (·.token)

namespace Formula

/-- The atoms of a formula that was read from a text, in reading order. -/
def ReadFrom (f : Formula) (text : String) (os : List Occurrence) : Prop :=
  ∃ read, tokenize text.toList = .ok read ∧ Occurs (.chain .iff) read.lexemes f os

variable {text : String} {f : Formula} {os : List Occurrence} {o : Occurrence}

theorem exists_readFrom (h : parse text = .ok f) : ∃ os, f.ReadFrom text os := by
  obtain ⟨read, htokens, hread⟩ := parse_eq_ok_iff_ofTokens.mp h
  obtain ⟨os, hos⟩ := (ofTokens_eq_ok_iff.mp hread).1.exists_occurs read.lexemes rfl
  exact ⟨os, read, htokens, hos⟩

/-- Where an atom was read, it may end, and no more parentheses are open than the limit allows. -/
theorem ReadFrom.fits (h : parse text = .ok f) (hos : f.ReadFrom text os) (ho : o ∈ os) :
    ∃ before after stop, tokenize text.toList = .ok ⟨before ++ (o.stretch ++ after), stop⟩ ∧
      Stops .primary after ∧ Fits (unclosed (before.map (·.token))) (o.stretch.map (·.token)) := by
  obtain ⟨⟨lexemes, stop⟩, hlexemes, hoccurs⟩ := hos
  obtain ⟨_, htokens, hread⟩ := parse_eq_ok_iff_ofTokens.mp h
  cases hlexemes.symm.trans htokens
  obtain ⟨_, _, hfits⟩ := ofTokens_eq_ok_iff.mp hread
  obtain ⟨before, after, rfl, hafter⟩ := hoccurs.standsAmong o ho
  have hstops := hafter [] stops_nil
  rw [List.append_nil] at hstops
  have hplace : Fits 0 ((before ++ (o.stretch ++ after)).map (·.token)) := hfits
  rw [List.map_append, List.map_append, fits_append, fits_append] at hplace
  exact ⟨before, after, stop, hlexemes, hstops, hplace.2.1⟩

theorem ReadFrom.faithful (h : parse text = .ok f) (hos : f.ReadFrom text os) (ho : o ∈ os) :
    o.Faithful text.toList := by
  obtain ⟨before, after, stop, hlexemes, hstops, hfits⟩ := hos.fits h ho
  obtain ⟨_, _, hoccurs⟩ := hos
  have hatom := hoccurs.atom_of_mem o ho
  have hlegible : ∀ t ∈ o.stretch.map (·.token), t.Legible := by
    refine List.forall_mem_map.mpr fun l hl => legible_of_lexemes hlexemes l ?_
    exact List.mem_append_right _ (List.mem_append_left _ hl)
  refine ⟨⟨before, after, stop, hlexemes, fun opens hopens => ?_⟩, hatom.lexes hlegible 0⟩
  exact reads_of_atom hatom rfl (hopens ▸ hfits) hstops

/-- Atoms have the same text exactly when they were written with the same tokens. -/
theorem ReadFrom.text_eq_iff {text' : String} {g : Formula} {qs : List Occurrence} {q : Occurrence}
    (h : parse text = .ok f) (hos : f.ReadFrom text os) (ho : o ∈ os)
    (h' : parse text' = .ok g) (hqs : g.ReadFrom text' qs) (hq : q ∈ qs) :
    o.text = q.text ↔ o.stretch.map (·.token) = q.stretch.map (·.token) := by
  obtain ⟨again, hagain, hmap⟩ := (hos.faithful h ho).lexed
  obtain ⟨again', hagain', hmap'⟩ := (hqs.faithful h' hq).lexed
  constructor
  · intro heq
    rw [heq] at hagain
    cases hagain.symm.trans hagain'
    exact hmap.symm.trans hmap'
  · intro heq
    obtain ⟨before, _, _, _, _, hfits⟩ := hos.fits h ho
    obtain ⟨_, _, hoccurs⟩ := hos
    obtain ⟨_, _, hoccurs'⟩ := hqs
    have hatom := hoccurs'.atom_of_mem q hq
    rw [← heq] at hatom
    exact (hoccurs.atom_of_mem o ho).text_eq hatom rfl (hfits.mono (Nat.zero_le _))

/-- Atoms are the same exactly when their tokens are.  The text of an atom is read as the tokens
that the atom was read from; and if one atom asks for its variable and, after any others, another
one does, of the same expression or of a different one, they get the same variable exactly when
they were written with the same tokens. -/
theorem parse_identifies_atoms {text' : String} {g : Formula} (h : parse text = .ok f)
    (h' : parse text' = .ok g) :
    (∃ os, f.ReadFrom text os) ∧
      (∀ os, f.ReadFrom text os →
        os.map (·.text) = f.atomOccurrences ∧ ∀ o ∈ os, o.Faithful text.toList) ∧
      ∀ os qs, f.ReadFrom text os → g.ReadFrom text' qs → ∀ o ∈ os, ∀ q ∈ qs,
        ∀ (table : VarTable) (names : List VarName),
          let first := table.intern (.atom o.text)
          let second := (first.2.internAll names).intern (.atom q.text)
          first.1 = second.1 ↔ o.stretch.map (·.token) = q.stretch.map (·.token) := by
  refine ⟨exists_readFrom h, fun os hos => ⟨?_, fun o ho => hos.faithful h ho⟩, ?_⟩
  · obtain ⟨_, _, hoccurs⟩ := hos
    exact hoccurs.texts
  · intro os qs hos hqs o ho q hq table names first second
    have hvariable : first.1 = second.1 ↔ VarName.atom o.text = VarName.atom q.text :=
      VarTable.intern_eq_intern_iff (first.2.keeps_internAll names)
    rw [hvariable, VarName.atom.injEq]
    exact hos.text_eq_iff h ho h' hqs hq

/-- One comparison in two spellings, with white space in a term and without. -/
theorem parse_identifies_atoms_spacing :
    parse "time(rebuild)>=12" = .ok (.atom "time(rebuild) >= 12") ∧
      parse "time ( rebuild ) ≥ 12" = .ok (.atom "time(rebuild) >= 12") ∧
      ∃ os qs, ReadFrom (.atom "time(rebuild) >= 12") "time(rebuild)>=12" os ∧
        ReadFrom (.atom "time(rebuild) >= 12") "time ( rebuild ) ≥ 12" qs ∧
        ∀ o ∈ os, ∀ q ∈ qs, ∀ (table : VarTable) (names : List VarName),
          let first := table.intern (.atom o.text)
          let second := (first.2.internAll names).intern (.atom q.text)
          first.1 = second.1 ↔ o.stretch.map (·.token) = q.stretch.map (·.token) := by
  have hatom : Atom [.name "time", .openParen, .name "rebuild", .closeParen,
      .compare .greaterOrEqual, .name "12"] "time(rebuild) >= 12" :=
    .comparison .greaterOrEqual (.applied "time" (.some (.last (.term (.name "rebuild") .nil)
      (List.cons_ne_nil _ _)))) (.term (.name "12"))
  have hread : ∀ (text : String) (read : Tokens), tokenize text.toList = .ok read →
      read.lexemes.map (·.token) = [.name "time", .openParen, .name "rebuild", .closeParen,
        .compare .greaterOrEqual, .name "12"] →
      parse text = .ok (.atom "time(rebuild) >= 12") := by
    intro text read htokens hmap
    refine parse_eq_ok_iff_ofTokens.mpr ⟨read, htokens, ofTokens_eq_ok_iff.mpr ?_⟩
    rw [hmap]
    refine ⟨(Derives.atom hatom).loosen (by decide), by decide, ?_⟩
    simp [fits_cons, fits_nil, openAfter, maxNesting]
  have h : parse "time(rebuild)>=12" = .ok (.atom "time(rebuild) >= 12") :=
    hread _ ⟨[⟨.name "time", 0, 4⟩, ⟨.openParen, 4, 5⟩, ⟨.name "rebuild", 5, 12⟩,
      ⟨.closeParen, 12, 13⟩, ⟨.compare .greaterOrEqual, 13, 15⟩, ⟨.name "12", 15, 17⟩], 17⟩ rfl rfl
  have h' : parse "time ( rebuild ) ≥ 12" = .ok (.atom "time(rebuild) >= 12") :=
    hread _ ⟨[⟨.name "time", 0, 4⟩, ⟨.openParen, 5, 6⟩, ⟨.name "rebuild", 7, 14⟩,
      ⟨.closeParen, 15, 16⟩, ⟨.compare .greaterOrEqual, 17, 18⟩, ⟨.name "12", 19, 21⟩], 21⟩ rfl rfl
  obtain ⟨⟨os, hos⟩, _, hsame⟩ := parse_identifies_atoms h h'
  obtain ⟨qs, hqs⟩ := exists_readFrom h'
  exact ⟨h, h', os, qs, hos, hqs, hsame os qs hos hqs⟩

end Formula

end Elenchus
