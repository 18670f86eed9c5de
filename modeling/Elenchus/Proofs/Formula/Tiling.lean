import Elenchus.Proofs.Formula.Lexing

/-!
# Where tokens stand

A text that is read without fault is white space and spelled tokens, one after another, and nothing
is left over (`Tiles`): the reading stops behind the last character (`stop_of_lexemes`).  What that
says of the places of the tokens and of the end is `Lossless`: the places follow each other, the
characters at each spell its token, only white space is outside of them, and the end is at the count
of the characters.  A text is refused at the first character that is neither white space nor written
in any token (`tokenize_spec`).
-/

namespace Elenchus

/-- A character that is neither white space nor written in any token. -/
def IsForeign (c : Char) : Prop := Text.isBlank c = false ∧ ¬IsTokenChar c

theorem IsTokenChar.not_isForeign {c : Char} (h : IsTokenChar c) : ¬IsForeign c := fun hc => hc.2 h

/-! ## Texts cut up -/

/-- From an offset on, a text is white space and spelled tokens, the tokens at their places. -/
inductive Tiles : Nat → List Char → List Lexeme → Prop
  | nil (pos : Nat) : Tiles pos [] []
  | blank {pos : Nat} {c : Char} {cs : List Char} {ls : List Lexeme} : Text.isBlank c = true →
      Tiles (pos + 1) cs ls → Tiles pos (c :: cs) ls
  | token {pos : Nat} {t : Token} {w cs : List Char} {ls : List Lexeme} : t.Spelling w →
      Tiles (pos + w.length) cs ls → Tiles pos (w ++ cs) (⟨t, pos, pos + w.length⟩ :: ls)

/-- From an offset on, a text is refused at its first foreign character. -/
def RefusedAt (pos : Nat) (cs : List Char) (error : FormulaError) : Prop :=
  ∃ before c after, cs = before ++ c :: after ∧ (∀ d ∈ before, ¬IsForeign d) ∧ IsForeign c ∧
    error = .foreignCharacter c (pos + before.length)

theorem RefusedAt.append {pos : Nat} {w cs : List Char} {error : FormulaError}
    (h : RefusedAt (pos + w.length) cs error) (hw : ∀ c ∈ w, ¬IsForeign c) :
    RefusedAt pos (w ++ cs) error := by
  obtain ⟨before, c, after, rfl, hbefore, hc, rfl⟩ := h
  refine ⟨w ++ before, c, after, (List.append_assoc ..).symm, ?_, hc, ?_⟩
  · exact List.forall_mem_append.mpr ⟨hw, hbefore⟩
  · rw [List.length_append, Nat.add_assoc]

/-- The text is cut up to its end, or refused at its first foreign character. -/
theorem lexemes_spec (pos : Nat) (cs : List Char) :
    match lexemes 0 pos cs with
    | .ok read => Tiles pos cs read.lexemes ∧ read.stop = pos + cs.length
    | .error error => RefusedAt pos cs error := by
  match cs with
  | [] => exact ⟨.nil pos, rfl⟩
  | c :: rest =>
      by_cases hc : Text.isBlank c = true
      · have hrest := lexemes_spec (pos + 1) rest
        rw [lexemes, if_pos hc]
        cases hlexemes : lexemes 0 (pos + 1) rest with
        | ok read =>
            rw [hlexemes] at hrest
            exact ⟨.blank hc hrest.1, by rw [hrest.2, List.length_cons]; omega⟩
        | error error =>
            rw [hlexemes] at hrest
            exact RefusedAt.append (w := [c]) hrest (by simp [IsForeign, hc])
      · rw [Bool.not_eq_true] at hc
        cases hread : Token.read (c :: rest) with
        | none =>
            rw [lexemes, if_neg (by simp [hc]), hread]
            exact ⟨[], c, rest, rfl, List.forall_mem_nil _, ⟨hc, not_isTokenChar_of_read hread⟩, rfl⟩
        | some answer =>
            obtain ⟨t, width⟩ := answer
            obtain ⟨w, after, heq, rfl, hspelling⟩ := exists_spelling_of_read hread
            have hlt : after.length < (c :: rest).length := by
              have hpos := List.length_pos_iff.mpr hspelling.ne_nil
              rw [heq, List.length_append]
              omega
            have hafter := lexemes_spec (pos + w.length) after
            rw [heq] at hread ⊢
            rw [lexemes_spelling pos hspelling hread]
            cases hlexemes : lexemes 0 (pos + w.length) after with
            | ok read =>
                rw [hlexemes] at hafter
                refine ⟨.token hspelling hafter.1, ?_⟩
                rw [List.length_append, ← Nat.add_assoc]
                exact hafter.2
            | error error =>
                rw [hlexemes] at hafter
                exact hafter.append fun d hd => (hspelling.isTokenChar d hd).not_isForeign
termination_by cs.length
decreasing_by
  · exact Nat.lt_succ_self _
  · exact hlt

section
variable {pos : Nat} {cs : List Char} {read : Tokens} (h : lexemes 0 pos cs = .ok read)
include h

theorem tiles_of_lexemes : Tiles pos cs read.lexemes := by
  have hspec := lexemes_spec pos cs
  rw [h] at hspec
  exact hspec.1

/-- The reading stops behind the last character. -/
theorem stop_of_lexemes : read.stop = pos + cs.length := by
  have hspec := lexemes_spec pos cs
  rw [h] at hspec
  exact hspec.2

end

/-! ## The places of the tokens -/

namespace Tiles

variable {pos : Nat} {cs : List Char} {ls : List Lexeme}

theorem spelling (h : Tiles pos cs ls) : ∀ l ∈ ls, ∃ w, l.token.Spelling w := by
  induction h with
  | nil => exact List.forall_mem_nil _
  | blank _ _ ih => exact ih
  | token hspelling _ ih => exact List.forall_mem_cons.mpr ⟨⟨_, hspelling⟩, ih⟩

theorem not_isForeign (h : Tiles pos cs ls) : ∀ c ∈ cs, ¬IsForeign c := by
  induction h with
  | nil => exact List.forall_mem_nil _
  | blank hc _ ih => exact List.forall_mem_cons.mpr ⟨by simp [IsForeign, hc], ih⟩
  | token hspelling _ ih =>
      refine List.forall_mem_append.mpr ⟨fun c hc => ?_, ih⟩
      exact (hspelling.isTokenChar c hc).not_isForeign

theorem bounds (h : Tiles pos cs ls) :
    ∀ l ∈ ls, pos ≤ l.start ∧ l.start < l.stop ∧ l.stop ≤ pos + cs.length := by
  induction h with
  | nil => exact List.forall_mem_nil _
  | blank _ _ ih =>
      intro l hl
      have := ih l hl
      rw [List.length_cons]
      omega
  | @token pos t w cs ls hspelling _ ih =>
      have hpos := List.length_pos_iff.mpr hspelling.ne_nil
      rw [List.length_append]
      refine List.forall_mem_cons.mpr ⟨by dsimp only; omega, fun l hl => ?_⟩
      have := ih l hl
      omega

theorem pairwise (h : Tiles pos cs ls) :
    ls.Pairwise fun l later => l.start < later.start ∧ l.stop ≤ later.start := by
  induction h with
  | nil => exact .nil
  | blank _ _ ih => exact ih
  | @token pos t w cs ls hspelling htiles ih =>
      have hpos := List.length_pos_iff.mpr hspelling.ne_nil
      refine .cons (fun l hl => ?_) ih
      have := htiles.bounds l hl
      dsimp only
      omega

/-- A token spells the characters at its place. -/
theorem spelled (h : Tiles pos cs ls) :
    ∀ l ∈ ls, l.token.Spelling ((cs.drop (l.start - pos)).take (l.stop - l.start)) := by
  induction h with
  | nil => exact List.forall_mem_nil _
  | @blank pos c cs ls _ htiles ih =>
      intro l hl
      have hstart := (htiles.bounds l hl).1
      have hdrop : l.start - pos = l.start - (pos + 1) + 1 := by omega
      rw [hdrop, List.drop_succ_cons]
      exact ih l hl
  | @token pos t w cs ls hspelling htiles ih =>
      refine List.forall_mem_cons.mpr ⟨by simpa using hspelling, fun l hl => ?_⟩
      have hstart := (htiles.bounds l hl).1
      have hdrop : l.start - pos = w.length + (l.start - (pos + w.length)) := by omega
      rw [hdrop, List.drop_length_add_append]
      exact ih l hl

/-- A character at no token's place is white space. -/
theorem isBlank (h : Tiles pos cs ls) {i : Nat} {c : Char} (hi : cs[i]? = some c)
    (hout : ∀ l ∈ ls, ¬(l.start ≤ pos + i ∧ pos + i < l.stop)) : Text.isBlank c = true := by
  induction h generalizing i with
  | nil => simp at hi
  | @blank pos d cs ls hd _ ih =>
      cases i with
      | zero =>
          cases hi
          exact hd
      | succ i =>
          refine ih hi fun l hl => ?_
          have := hout l hl
          omega
  | @token pos t w cs ls _ _ ih =>
      obtain ⟨hfirst, hrest⟩ := List.forall_mem_cons.mp hout
      have hle : w.length ≤ i := by
        dsimp only at hfirst
        omega
      rw [List.getElem?_append_right hle] at hi
      refine ih hi fun l hl => ?_
      have := hrest l hl
      omega

end Tiles

theorem legible_of_lexemes {pos : Nat} {cs : List Char} {read : Tokens}
    (h : lexemes 0 pos cs = .ok read) : ∀ l ∈ read.lexemes, l.token.Legible := by
  intro l hl
  obtain ⟨w, hspelling⟩ := (tiles_of_lexemes h).spelling l hl
  exact hspelling.legible

/-- Nothing of a text is lost in what it is read as. -/
structure Lossless (source : List Char) (read : Tokens) : Prop where
  /-- Each token has a place inside the text, and it is not empty. -/
  inside : ∀ l ∈ read.lexemes, l.start < l.stop ∧ l.stop ≤ source.length
  /-- A token begins after the ones before it, where they have ended or later. -/
  ascending : read.lexemes.Pairwise fun l later => l.start < later.start ∧ l.stop ≤ later.start
  spelled : ∀ l ∈ read.lexemes,
    l.token.Spelling ((source.drop l.start).take (l.stop - l.start))
  /-- Outside of the tokens is only white space. -/
  blank : ∀ i c, source[i]? = some c → (∀ l ∈ read.lexemes, ¬(l.start ≤ i ∧ i < l.stop)) →
    Text.isBlank c = true
  /-- The reading went on to the end of the text. -/
  ending : read.stop = source.length

theorem lossless_of_lexemes {source : List Char} {read : Tokens}
    (h : lexemes 0 0 source = .ok read) : Lossless source read := by
  have htiles := tiles_of_lexemes h
  exact {
    inside := fun l hl => by
      have := htiles.bounds l hl
      omega
    ascending := htiles.pairwise
    spelled := htiles.spelled
    blank := fun i c hi hout => htiles.isBlank hi (by simpa using hout)
    ending := by rw [stop_of_lexemes h, Nat.zero_add] }

/-- A text is refused exactly when it has a character that is neither white space nor written in any
token, and then at the first of them.  Nothing of any other text is lost. -/
theorem tokenize_spec (source : List Char) :
    match tokenize source with
    | .ok read => (∀ c ∈ source, ¬IsForeign c) ∧ Lossless source read
    | .error error => ∃ before c after, source = before ++ c :: after ∧
        (∀ d ∈ before, ¬IsForeign d) ∧ IsForeign c ∧
        error = .foreignCharacter c before.length := by
  unfold tokenize
  cases hlexemes : lexemes 0 0 source with
  | ok read => exact ⟨(tiles_of_lexemes hlexemes).not_isForeign, lossless_of_lexemes hlexemes⟩
  | error error =>
      have hspec := lexemes_spec 0 source
      rw [hlexemes] at hspec
      obtain ⟨before, c, after, heq, hbefore, hc, herror⟩ := hspec
      rw [Nat.zero_add] at herror
      exact ⟨before, c, after, heq, hbefore, hc, herror⟩

end Elenchus
