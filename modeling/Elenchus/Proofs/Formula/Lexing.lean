import Elenchus.Proofs.Formula.Spelling

/-!
# Texts that are read as given tokens

`Lexes` says which tokens a text is read as, without their offsets, and `Spells` that a text is read
as given tokens whatever stands after it, as long as that goes on with no token.  Every spelling of a
token spells it (`spells_of_spelling`), and longer texts are put together by the lemmas of the
section after; that the tokens next to each other do not run together is proved there, once for each
way of joining.

With white space between them, tokens are read as they were written, whichever spellings were chosen
(`tokenize_written`).
-/

namespace Elenchus

/-! ## The tokens of a text -/

/-- The text is read as the tokens, at whatever offset it stands. -/
def Lexes (cs : List Char) (ts : List Token) : Prop :=
  ∀ pos, ∃ read, lexemes 0 pos cs = .ok read ∧ read.lexemes.map (·.token) = ts

/-- Characters of a token that is read already are passed over. -/
theorem lexemes_skip (skip pos : Nat) (cs : List Char) :
    lexemes skip pos cs = lexemes 0 (pos + skip) (cs.drop skip) := by
  induction cs generalizing skip pos with
  | nil => rw [List.drop_nil, lexemes, lexemes, Nat.add_zero]
  | cons c rest ih =>
      cases skip with
      | zero => rfl
      | succ skip =>
          rw [lexemes, ih, List.drop_succ_cons]
          congr 1
          omega

section
variable {c : Char} {cs rest : List Char} {t : Token} {ts : List Token}

/-- A token that is read at the head of a text comes first, and the text after it is read by
itself. -/
theorem lexemes_read (width pos : Nat) (hc : Text.isBlank c = false)
    (hread : Token.read (c :: rest) = some (t, width + 1)) :
    lexemes 0 pos (c :: rest) =
      (lexemes 0 (pos + (width + 1)) (rest.drop width)).map
        (·.cons ⟨t, pos, pos + (width + 1)⟩) := by
  have hpos : pos + 1 + width = pos + (width + 1) := by omega
  rw [lexemes, if_neg (by simp [hc]), hread]
  simp only [Nat.add_sub_cancel, lexemes_skip width (pos + 1) rest, hpos]
  cases lexemes 0 (pos + (width + 1)) (rest.drop width) <;> rfl

theorem lexemes_spelling {w : List Char} (pos : Nat) (h : t.Spelling w)
    (hread : Token.read (w ++ rest) = some (t, w.length)) :
    lexemes 0 pos (w ++ rest) =
      (lexemes 0 (pos + w.length) rest).map (·.cons ⟨t, pos, pos + w.length⟩) := by
  obtain ⟨c, more, rfl⟩ := List.exists_cons_of_ne_nil h.ne_nil
  have hc := isBlank_of_isTokenChar (h.isTokenChar c List.mem_cons_self)
  have hfirst := lexemes_read more.length pos hc hread
  simpa using hfirst

theorem lexes_nil : Lexes [] [] := fun pos => ⟨⟨[], pos⟩, rfl, rfl⟩

theorem Lexes.blank (h : Lexes rest ts) (hc : Text.isBlank c = true) : Lexes (c :: rest) ts := by
  intro pos
  rw [lexemes, if_pos hc]
  exact h (pos + 1)

theorem Lexes.read (width : Nat) (h : Lexes (rest.drop width) ts)
    (hc : Text.isBlank c = false) (hread : Token.read (c :: rest) = some (t, width + 1)) :
    Lexes (c :: rest) (t :: ts) := by
  intro pos
  obtain ⟨later, hlater, hmap⟩ := h (pos + (width + 1))
  refine ⟨later.cons ⟨t, pos, pos + (width + 1)⟩, ?_, by rw [Tokens.cons, List.map_cons, hmap]⟩
  rw [lexemes_read width pos hc hread, hlater]
  rfl

end

/-! ## Parts of a text -/

/-- The text is read as the tokens, and what follows it as if it stood alone. -/
def Spells (cs : List Char) (ts : List Token) : Prop :=
  ∀ rest us, Delimits rest → Lexes rest us → Lexes (cs ++ rest) (ts ++ us)

section
variable {rest : List Char} {ts : List Token}

theorem Lexes.openParen (h : Lexes rest ts) : Lexes ('(' :: rest) (.openParen :: ts) :=
  Lexes.read 0 h rfl rfl

theorem Lexes.closeParen (h : Lexes rest ts) : Lexes (')' :: rest) (.closeParen :: ts) :=
  Lexes.read 0 h rfl rfl

theorem Lexes.comma (h : Lexes rest ts) : Lexes (',' :: rest) (.comma :: ts) :=
  Lexes.read 0 h rfl rfl

theorem Lexes.not (h : Lexes rest ts) : Lexes ('¬' :: rest) (.not :: ts) :=
  Lexes.read 0 h rfl rfl

end

theorem spells_of_spelling {t : Token} {w : List Char} (h : t.Spelling w) : Spells w [t] := by
  intro rest us hrest hlexes pos
  obtain ⟨later, hlater, hmap⟩ := hlexes (pos + w.length)
  refine ⟨later.cons ⟨t, pos, pos + w.length⟩, ?_, by rw [Tokens.cons, List.map_cons, hmap]; rfl⟩
  rw [lexemes_spelling pos h (read_spelling h hrest), hlater]
  rfl

theorem spells_compare (op : Comparison) : Spells op.sign.toList [.compare op] :=
  spells_of_spelling (.sign (by cases op <;> decide))

theorem spells_connective (c : Connective) : Spells c.sign.toList [.connective c] :=
  spells_of_spelling (.sign (by cases c <;> decide))

theorem spells_constantWord (value : Bool) :
    Spells (constantWord value).toList [.const value] :=
  spells_of_spelling (.sign (by cases value <;> decide))

section
variable {cs ds : List Char} {ts us : List Token}

theorem spells_nil : Spells [] [] := by
  intro rest us _ h
  exact h

theorem Spells.not (h : Spells cs ts) : Spells ('¬' :: cs) (.not :: ts) := by
  intro rest us hrest hlexes
  exact (h rest us hrest hlexes).not

theorem Spells.parens (h : Spells cs ts) :
    Spells ('(' :: (cs ++ [')'])) (.openParen :: (ts ++ [.closeParen])) := by
  intro rest us hrest hlexes
  have hinside := h (')' :: rest) (.closeParen :: us) (delimits_cons (by simp)) hlexes.closeParen
  simpa using hinside.openParen

theorem Spells.append_parens (h : Spells cs ts) (h' : Spells ds us) :
    Spells (cs ++ '(' :: (ds ++ [')'])) (ts ++ .openParen :: (us ++ [.closeParen])) := by
  intro rest vs hrest hlexes
  have hparens := h'.parens rest vs hrest hlexes
  rw [List.append_assoc, List.append_assoc]
  exact h _ _ (delimits_cons (by simp)) hparens

theorem Spells.append_blank (h : Spells cs ts) (h' : Spells ds us) :
    Spells (cs ++ ' ' :: ds) (ts ++ us) := by
  intro rest vs hrest hlexes
  rw [List.append_assoc, List.append_assoc]
  exact h _ _ (delimits_cons (by simp)) ((h' rest vs hrest hlexes).blank rfl)

theorem Spells.append_comma (h : Spells cs ts) (h' : Spells ds us) :
    Spells (cs ++ ',' :: ' ' :: ds) (ts ++ .comma :: us) := by
  intro rest vs hrest hlexes
  rw [List.append_assoc, List.append_assoc]
  exact h _ _ (delimits_cons (by simp)) ((h' rest vs hrest hlexes).blank rfl).comma

end

/-! ## Tokens apart from each other -/

/-- A text in which tokens are written in their order and apart from each other.  Each has one of
its spellings; between two of them stands white space, as much as one likes, and there may be more
of it before the first and after the last. -/
inductive Written : List Token → List Char → Prop
  | nil : Written [] []
  | blank {c : Char} {ts : List Token} {cs : List Char} : Text.isBlank c = true → Written ts cs →
      Written ts (c :: cs)
  | token {t : Token} {w : List Char} {ts : List Token} {cs : List Char} : t.Spelling w →
      (∀ c, cs.head? = some c → Text.isBlank c = true) → Written ts cs →
      Written (t :: ts) (w ++ cs)

theorem Written.lexes {ts : List Token} {cs : List Char} (h : Written ts cs) : Lexes cs ts := by
  induction h with
  | nil => exact lexes_nil
  | blank hc _ ih => exact ih.blank hc
  | token hspelling hapart _ ih =>
      exact spells_of_spelling hspelling _ _ (delimits_of_isBlank hapart) ih

/-- Tokens that are written apart from each other are read as they were written, and nothing else is
read. -/
theorem tokenize_written {ts : List Token} {cs : List Char} (h : Written ts cs) :
    ∃ read, tokenize cs = .ok read ∧ read.lexemes.map (·.token) = ts :=
  h.lexes 0

/-- Hyphens that are names, next to an arrow and inside of names, and signs that begin alike. -/
theorem tokenize_written_hyphens :
    Written [.name "-", .connective .implies, .name "-a-", .connective .iff, .compare .less,
        .const true] "- ->\t-a-  <=> < TRUE".toList ∧
      ∃ read, tokenize "- ->\t-a-  <=> < TRUE".toList = .ok read ∧
        read.lexemes.map (·.token) = [.name "-", .connective .implies, .name "-a-",
          .connective .iff, .compare .less, .const true] := by
  have hgap : ∀ (c : Char) (cs : List Char), Text.isBlank c = true →
      ∀ d, (c :: cs).head? = some d → Text.isBlank d = true := by
    intro c cs hc d hd
    cases hd
    exact hc
  have hnames : IsName "-" ∧ IsName "-a-" := by
    constructor <;> exact ⟨by decide, forall_of_all (by decide), by decide⟩
  have hyphen : Token.Spelling (.name "-") ['-'] := .name hnames.1
  have hname : Token.Spelling (.name "-a-") ['-', 'a', '-'] := .name hnames.2
  have harrow : Token.Spelling (.connective .implies) ['-', '>'] := .sign (s := "->") (by decide)
  have hdouble : Token.Spelling (.connective .iff) ['<', '=', '>'] := .sign (s := "<=>") (by decide)
  have hless : Token.Spelling (.compare .less) ['<'] := .sign (s := "<") (by decide)
  have hconst : Token.Spelling (.const true) ['T', 'R', 'U', 'E'] := .sign (s := "TRUE") (by decide)
  have hend : Written [.compare .less, .const true] ['<', ' ', 'T', 'R', 'U', 'E'] :=
    .token hless (hgap ' ' _ rfl) (.blank rfl (.token hconst (by simp) .nil))
  have hmiddle : Written [.name "-a-", .connective .iff, .compare .less, .const true]
      "-a-  <=> < TRUE".toList :=
    .token hname (hgap ' ' _ rfl) (.blank rfl (.blank rfl
      (.token hdouble (hgap ' ' _ rfl) (.blank rfl hend))))
  have h : Written [.name "-", .connective .implies, .name "-a-", .connective .iff, .compare .less,
      .const true] "- ->\t-a-  <=> < TRUE".toList :=
    .token hyphen (hgap ' ' _ rfl) (.blank rfl
      (.token harrow (hgap '\t' _ rfl) (.blank rfl hmiddle)))
  exact ⟨h, tokenize_written h⟩

end Elenchus
