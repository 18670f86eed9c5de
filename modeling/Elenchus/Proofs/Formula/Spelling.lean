import Elenchus.Formula.Lexer

/-!
# How tokens are spelled

`Token.Spelling` lists, token by token, the texts that a token may be written as: one of a few signs
and words (`Token.signs`), or for a name the name itself.  The reader goes the other way, from a text
to the token at its head, by one table and by words.  The two agree.

* What is read is a spelling of the token (`exists_spelling_of_read`), and where nothing is read
  stands a character that no token is written with (`not_isTokenChar_of_read`).
* A spelling is read as its token, whatever it goes on with, as long as that is a character that
  goes on with no token (`read_spelling`).  Of two signs that begin alike the longer one stands first
  in the table (`spellings_apart`), and it goes on with a character that delimits nothing.
-/

namespace Elenchus

/-! ## Spellings -/

/-- The signs and words that stand for a token; a name has none. -/
def Token.signs : Token → List String
  | .not => ["¬", "~", "!"]
  | .connective .and => ["∧", "&", "&&"]
  | .connective .or => ["∨", "|", "||"]
  | .connective .implies => ["→", "⇒", "->", "=>"]
  | .connective .iff => ["↔", "⇔", "<->", "<=>"]
  | .openParen => ["("]
  | .closeParen => [")"]
  | .comma => [","]
  | .compare .less => ["<"]
  | .compare .lessOrEqual => ["≤", "<="]
  | .compare .equal => ["=", "=="]
  | .compare .notEqual => ["≠", "!="]
  | .compare .greaterOrEqual => ["≥", ">="]
  | .compare .greater => [">"]
  | .const true => ["⊤", "true", "True", "TRUE"]
  | .const false => ["⊥", "false", "False", "FALSE"]
  | .name _ => []

/-- The words that are constants, and so no names. -/
def constantWords : List String := ["true", "True", "TRUE", "false", "False", "FALSE"]

structure IsName (text : String) : Prop where
  nonempty : text ≠ ""
  chars : ∀ c ∈ text.toList, isNameChar c = true ∨ c = '-'
  notConstant : text ∉ constantWords

/-- A token that is written somehow: if it is a name, then one that may be. -/
def Token.Legible (t : Token) : Prop := ∀ text, t = .name text → IsName text

/-- The texts that a token may be written as. -/
inductive Token.Spelling : Token → List Char → Prop
  | sign {t : Token} {s : String} : s ∈ t.signs → Token.Spelling t s.toList
  | name {text : String} : IsName text → Token.Spelling (.name text) text.toList

/-- The characters of signs, the hyphen apart, which may stand in a name too. -/
def signCharacters : List Char :=
  ['(', ')', ',', '¬', '~', '!', '∧', '&', '∨', '|', '→', '⇒', '↔', '⇔', '<', '=', '>', '≤', '≥',
   '≠', '⊤', '⊥']

/-- A character that some token is written with. -/
def IsTokenChar (c : Char) : Prop := isNameChar c = true ∨ c = '-' ∨ c ∈ signCharacters

instance (c : Char) : Decidable (IsTokenChar c) := inferInstanceAs (Decidable (_ ∨ _))

/-- What is decided of each member of a list.  A decision of the statement itself may go through all
characters instead, as there are finitely many of them. -/
theorem forall_of_all {P : Char → Prop} [DecidablePred P] {cs : List Char}
    (h : (cs.all fun c => decide (P c)) = true) : ∀ c ∈ cs, P c :=
  fun c hc => of_decide_eq_true (List.all_eq_true.mp h c hc)

/-! ## White space -/

namespace Text

/-- The characters of some ranges. -/
def CodeRanges.members (ranges : CodeRanges) : List Char :=
  ranges.flatMap fun (first, last) => (List.range' first (last + 1 - first)).map Char.ofNat

theorem CodeRanges.mem_members {ranges : CodeRanges} {c : Char} (h : ranges.has c = true) :
    c ∈ ranges.members := by
  obtain ⟨⟨first, last⟩, hrange, hc⟩ := List.any_eq_true.mp h
  simp only [Bool.and_eq_true, decide_eq_true_eq] at hc
  refine List.mem_flatMap.mpr ⟨_, hrange, List.mem_map.mpr ⟨c.toNat, ?_, Char.ofNat_toNat c⟩⟩
  exact List.mem_range'_1.mpr (by omega)

end Text

theorem isBlank_of_isTokenChar {c : Char} (h : IsTokenChar c) : Text.isBlank c = false := by
  have hall : ∀ d ∈ Text.blanks.members, ¬IsTokenChar d := forall_of_all (by decide +kernel)
  rw [Bool.eq_false_iff]
  intro hblank
  exact hall c (Text.CodeRanges.mem_members hblank) h

/-! ## Words -/

/-- A run of characters that is one word. -/
structure IsWord (w : List Char) : Prop where
  nonempty : w ≠ []
  whole : word w = w

/-- The character before `rest` belongs to a word. -/
def InWord (c : Char) (rest : List Char) : Prop :=
  isNameChar c = true ∨ c = '-' ∧ rest.head? ≠ some '>'

theorem inWord_iff {c : Char} {rest : List Char} :
    (isNameChar c || (c = '-' && rest.head? ≠ some '>')) = true ↔ InWord c rest := by
  simp [InWord]

theorem word_cons {c : Char} {rest : List Char} (h : InWord c rest) :
    word (c :: rest) = c :: word rest := by
  rw [word, if_pos (inWord_iff.mpr h)]

theorem word_eq_nil {c : Char} {rest : List Char} (h : ¬InWord c rest) : word (c :: rest) = [] := by
  rw [word, if_neg (mt inWord_iff.mp h)]

theorem InWord.congr {c : Char} {rest rest' : List Char} (h : InWord c rest)
    (hrest : rest.head? ≠ some '>' → rest'.head? ≠ some '>') : InWord c rest' :=
  h.imp_right fun hyphen => ⟨hyphen.1, hrest hyphen.2⟩

theorem inWord_of_word {c : Char} {w : List Char} (h : word (c :: w) = c :: w) :
    InWord c w ∧ word w = w := by
  by_cases hc : InWord c w
  · rw [word_cons hc] at h
    exact ⟨hc, (List.cons.inj h).2⟩
  · rw [word_eq_nil hc] at h
    cases h

theorem word_prefix (cs : List Char) : word cs <+: cs := by
  induction cs with
  | nil => exact List.prefix_refl []
  | cons c rest ih =>
      by_cases hc : InWord c rest
      · rw [word_cons hc]
        exact List.cons_prefix_cons.mpr ⟨rfl, ih⟩
      · rw [word_eq_nil hc]
        exact List.nil_prefix

theorem mem_word {cs : List Char} {c : Char} (h : c ∈ word cs) : isNameChar c = true ∨ c = '-' := by
  induction cs with
  | nil => cases h
  | cons d rest ih =>
      by_cases hd : InWord d rest
      · rw [word_cons hd] at h
        cases h with
        | head => exact hd.imp_right And.left
        | tail _ h => exact ih h
      · rw [word_eq_nil hd] at h
        cases h

theorem IsName.isWord {text : String} (h : IsName text) : IsWord text.toList := by
  refine ⟨fun hnil => h.nonempty (String.toList_eq_nil_iff.mp hnil), ?_⟩
  have hwhole : ∀ w : List Char, (∀ c ∈ w, isNameChar c = true ∨ c = '-') → word w = w := by
    intro w hw
    induction w with
    | nil => rfl
    | cons c w ih =>
        obtain ⟨hc, hw⟩ := List.forall_mem_cons.mp hw
        -- No character of a name makes an arrow of the hyphen before it.
        have hnext : w.head? ≠ some '>' := by
          intro hhead
          rcases hw '>' (List.mem_of_head? hhead) with hname | hname
          · exact absurd hname (by decide)
          · cases hname
        rw [word_cons (hc.imp_right fun hyphen => ⟨hyphen, hnext⟩), ih hw]
  exact hwhole _ h.chars

theorem IsName.ofWord {text : String} (h : IsName text) :
    Token.ofWord text.toList = .name text := by
  have hnone : constantSpellings.lookup text.toList = none := by
    rw [List.lookup_eq_none_iff]
    intro entry hentry
    have hwords : ∀ entry ∈ constantSpellings, String.ofList entry.1 ∈ constantWords := by
      decide
    rw [bne_iff_ne]
    intro heq
    refine h.notConstant ?_
    rw [← String.ofList_toList (s := text), heq]
    exact hwords entry hentry
  rw [Token.ofWord, hnone, String.ofList_toList]

/-- What a word stands for is spelled by it. -/
theorem spelling_ofWord {cs : List Char} (h : word cs ≠ []) :
    (Token.ofWord (word cs)).Spelling (word cs) := by
  unfold Token.ofWord
  split
  next value hsome =>
    have hsigns : ∀ entry ∈ constantSpellings,
        String.ofList entry.1 ∈ (Token.const entry.2).signs := by
      decide
    obtain ⟨before, after, heq, _⟩ := List.lookup_eq_some_iff.mp hsome
    have hmem : (word cs, value) ∈ constantSpellings := by simp [heq]
    have hspelling := Token.Spelling.sign (hsigns _ hmem)
    rwa [String.toList_ofList] at hspelling
  next hnone =>
    have hname : IsName (String.ofList (word cs)) := by
      refine ⟨fun hempty => h ?_, fun c hc => ?_, fun hword => ?_⟩
      · rw [← String.toList_ofList (l := word cs), hempty]
        rfl
      · rw [String.toList_ofList] at hc
        exact mem_word hc
      · have hsome : ∀ s ∈ constantWords, constantSpellings.lookup s.toList ≠ none := by
          decide
        refine hsome _ hword ?_
        rw [String.toList_ofList]
        exact hnone
    have hspelling := Token.Spelling.name hname
    rwa [String.toList_ofList] at hspelling

/-! ## The table -/

theorem signs_of_spellings : ∀ entry ∈ spellings, String.ofList entry.1 ∈ entry.2.signs := by
  decide

/-- A sign is in the table, or it is a constant word. -/
theorem mem_spellings_of_sign {t : Token} {s : String} (h : s ∈ t.signs) :
    (s.toList, t) ∈ spellings ∨ (IsWord s.toList ∧ Token.ofWord s.toList = t) := by
  have hcases : ∀ s ∈ t.signs, (s.toList, t) ∈ spellings ∨
      (s.toList ≠ [] ∧ word s.toList = s.toList) ∧ Token.ofWord s.toList = t := by
    match t with
    | .name _ => exact List.forall_mem_nil _
    | .not | .openParen | .closeParen | .comma => decide
    | .connective c => cases c <;> decide
    | .compare op => cases op <;> decide
    | .const value => cases value <;> decide
  exact (hcases s h).imp_right fun hword => ⟨⟨hword.1.1, hword.1.2⟩, hword.2⟩

namespace Token.Spelling

variable {t : Token} {w : List Char}

theorem isTokenChar (h : t.Spelling w) : ∀ c ∈ w, IsTokenChar c := by
  have hword : ∀ {w : List Char}, IsWord w → ∀ c ∈ w, IsTokenChar c := by
    intro w hw c hc
    rw [← hw.whole] at hc
    exact (mem_word hc).imp_right Or.inl
  cases h with
  | sign hs =>
      rcases mem_spellings_of_sign hs with htable | ⟨hsign, _⟩
      · have hall : ∀ entry ∈ spellings,
            (entry.1.all fun c => decide (c = '-' ∨ c ∈ signCharacters)) = true := by
          decide
        exact fun c hc => .inr (forall_of_all (hall _ htable) c hc)
      · exact hword hsign
  | name hname => exact hword hname.isWord

theorem ne_nil (h : t.Spelling w) : w ≠ [] := by
  cases h with
  | sign hs =>
      rcases mem_spellings_of_sign hs with htable | ⟨hword, _⟩
      · have hall : ∀ entry ∈ spellings, entry.1 ≠ [] := by decide
        exact hall _ htable
      · exact hword.nonempty
  | name hname => exact hname.isWord.nonempty

theorem legible (h : t.Spelling w) : t.Legible := by
  rintro text rfl
  cases h with
  | sign hs => cases hs
  | name hname => exact hname

end Token.Spelling

/-- What is read at the head of a text is a spelling of the token, as many characters as it
takes. -/
theorem exists_spelling_of_read {cs : List Char} {t : Token} {width : Nat}
    (h : Token.read cs = some (t, width)) :
    ∃ w rest, cs = w ++ rest ∧ width = w.length ∧ t.Spelling w := by
  unfold Token.read at h
  split at h
  next spelling token hfind =>
    cases h
    have hfits : spelling.isPrefixOf cs = true :=
      List.find?_some (p := fun entry : List Char × Token => entry.1.isPrefixOf cs) hfind
    obtain ⟨rest, hrest⟩ := List.isPrefixOf_iff_prefix.mp hfits
    have hspelling := Token.Spelling.sign (signs_of_spellings _ (List.mem_of_find?_eq_some hfind))
    rw [String.toList_ofList] at hspelling
    exact ⟨spelling, rest, hrest.symm, rfl, hspelling⟩
  next =>
    split at h
    next => cases h
    next w hw hne =>
      cases h
      obtain ⟨rest, hrest⟩ := word_prefix cs
      exact ⟨word cs, rest, hrest.symm, rfl, spelling_ofWord hne⟩

/-- Where no token is read stands a character that no token is written with. -/
theorem not_isTokenChar_of_read {c : Char} {rest : List Char} (h : Token.read (c :: rest) = none) :
    ¬IsTokenChar c := by
  unfold Token.read at h
  split at h
  next => cases h
  next hfind =>
    split at h
    next hword =>
      have hsign : ∀ entry ∈ spellings, ¬entry.1 <+: c :: rest := by
        intro entry hentry hfits
        exact List.find?_eq_none.mp hfind entry hentry (List.isPrefixOf_iff_prefix.mpr hfits)
      have hout : ¬InWord c rest := by
        intro hc
        rw [word_cons hc] at hword
        cases hword
      rintro (hname | rfl | hc)
      · exact hout (.inl hname)
      · -- A hyphen that belongs to no word starts an arrow.
        have harrow : rest.head? = some '>' :=
          Decidable.byContradiction fun hne => hout (.inr ⟨rfl, hne⟩)
        obtain ⟨after, rfl⟩ := List.head?_eq_some_iff.mp harrow
        have hmem : (['-', '>'], Token.connective .implies) ∈ spellings := by decide
        exact hsign _ hmem ⟨after, rfl⟩
      · have hsigns : ∀ c ∈ signCharacters, ∃ entry ∈ spellings, entry.1 = [c] :=
          forall_of_all (by decide)
        obtain ⟨entry, hentry, heq⟩ := hsigns c hc
        exact hsign entry hentry ⟨rest, by rw [heq, List.singleton_append]⟩
    next => cases h

/-! ## What may follow -/

/-- The characters that a sign goes on with after a shorter one. -/
def continuations : List Char := ['-', '>', '=', '&', '|']

/-- Nothing, or a character that goes on with no token. -/
def Delimits (rest : List Char) : Prop :=
  ∀ c, rest.head? = some c → isNameChar c = false ∧ c ∉ continuations

theorem delimits_nil : Delimits [] := by
  intro c hc
  cases hc

theorem delimits_cons {c : Char} {rest : List Char} (h : c ∈ [' ', '(', ')', ',']) :
    Delimits (c :: rest) := by
  have hplain : ∀ d ∈ [' ', '(', ')', ','], isNameChar d = false ∧ d ∉ continuations :=
    forall_of_all (by decide)
  intro d hd
  cases hd
  exact hplain c h

theorem delimits_of_isBlank {rest : List Char}
    (h : ∀ c, rest.head? = some c → Text.isBlank c = true) : Delimits rest := by
  have hcontinuations : ∀ d ∈ continuations, IsTokenChar d := forall_of_all (by decide)
  intro c hc
  have hplain : ¬IsTokenChar c := by
    intro hchar
    have hblank := h c hc
    rw [isBlank_of_isTokenChar hchar] at hblank
    exact Bool.false_ne_true hblank
  refine ⟨?_, mt (hcontinuations c) hplain⟩
  rw [Bool.eq_false_iff]
  exact fun hname => hplain (.inl hname)

/-- What follows makes no arrow of a hyphen. -/
theorem head?_append_of_delimits {cs rest : List Char} (hrest : Delimits rest)
    (h : cs.head? ≠ some '>') : (cs ++ rest).head? ≠ some '>' := by
  cases cs with
  | nil =>
      intro hhead
      exact (hrest '>' hhead).2 (by decide)
  | cons c cs => exact h

theorem word_of_delimits {rest : List Char} (h : Delimits rest) : word rest = [] := by
  cases rest with
  | nil => rfl
  | cons c rest =>
      obtain ⟨hname, hc⟩ := h c rfl
      refine word_eq_nil ?_
      rintro (hin | ⟨rfl, _⟩)
      · rw [hname] at hin
        cases hin
      · exact hc (by decide)

theorem word_append {w rest : List Char} (h : word w = w) (hrest : Delimits rest) :
    word (w ++ rest) = w := by
  induction w with
  | nil => exact word_of_delimits hrest
  | cons c w ih =>
      obtain ⟨hc, hw⟩ := inWord_of_word h
      rw [List.cons_append, word_cons (hc.congr (head?_append_of_delimits hrest)), ih hw]

/-! ## Spellings are read -/

/-- The spelling of a token begins with no character of a name.  Only an arrow begins with a
hyphen. -/
theorem head_of_spelling : ∀ entry ∈ spellings,
    entry.1 ≠ [] ∧ entry.1.head?.any isNameChar = false ∧
      (entry.1.head? = some '-' → entry.1 = ['-', '>']) := by
  decide +kernel

/-- No spelling of the table stands where a word does. -/
theorem not_spelled {w rest : List Char} (h : IsWord w) (hrest : Delimits rest) :
    spellings.find? (fun entry => entry.1.isPrefixOf (w ++ rest)) = none := by
  rw [List.find?_eq_none]
  rintro ⟨spelling, token⟩ hentry hfits
  obtain ⟨c, w, rfl⟩ := List.exists_cons_of_ne_nil h.nonempty
  obtain ⟨hne, hname, hyphen⟩ := head_of_spelling _ hentry
  obtain ⟨d, more, rfl⟩ := List.exists_cons_of_ne_nil hne
  simp only [List.cons_append, List.isPrefixOf_cons_cons, Bool.and_eq_true, beq_iff_eq] at hfits
  obtain ⟨rfl, hfits⟩ := hfits
  rcases (inWord_of_word h.whole).1 with hd | ⟨rfl, hd⟩
  · simp [hd] at hname
  · cases hyphen rfl
    refine head?_append_of_delimits hrest hd ?_
    cases hafter : w ++ rest with
    | nil => simp [hafter] at hfits
    | cons e after =>
        simp only [hafter, List.isPrefixOf_cons_cons, Bool.and_eq_true, beq_iff_eq] at hfits
        rw [List.head?_cons, ← hfits.1]

theorem read_word {w rest : List Char} (h : IsWord w) (hrest : Delimits rest) :
    Token.read (w ++ rest) = some (.ofWord w, w.length) := by
  rw [Token.read, not_spelled h hrest, word_append h.whole hrest]
  dsimp only
  split
  next heq => exact absurd rfl h.nonempty
  next => rfl

/-- No spelling of the table is found at the head of a later one, and if it goes on from a later
one, then with a character that delimits nothing. -/
theorem spellings_apart : spellings.Pairwise fun earlier later =>
    ¬earlier.1 <+: later.1 ∧ (later.1 <+: earlier.1 →
      (earlier.1.drop later.1.length).head?.all (· ∈ continuations) = true) := by
  decide

theorem not_prefix_append {w longer rest : List Char} (hnot : ¬longer <+: w)
    (hgoes : w <+: longer → (longer.drop w.length).head?.all (· ∈ continuations) = true)
    (hrest : Delimits rest) : ¬longer <+: w ++ rest := by
  intro hfits
  obtain ⟨more, rfl⟩ : w <+: longer :=
    (List.prefix_or_prefix_of_prefix hfits (List.prefix_append w rest)).resolve_left hnot
  have hnext := hgoes (List.prefix_append w more)
  rw [List.drop_left] at hnext
  cases more with
  | nil => exact hnot (by simp)
  | cons c more =>
      obtain ⟨later, rfl⟩ := (List.prefix_append_right_inj w).mp hfits
      exact (hrest c rfl).2 (by simpa using hnext)

theorem find?_spelling {entry : List Char × Token} {rest : List Char} (h : entry ∈ spellings)
    (hrest : Delimits rest) :
    spellings.find? (fun other => other.1.isPrefixOf (entry.1 ++ rest)) = some entry := by
  obtain ⟨before, after, heq⟩ := List.append_of_mem h
  have hapart := spellings_apart
  rw [heq, List.pairwise_append] at hapart
  rw [heq, List.find?_eq_some_iff_append]
  refine ⟨List.isPrefixOf_iff_prefix.mpr (List.prefix_append _ _), before, after, rfl, ?_⟩
  intro earlier hearlier
  obtain ⟨hnot, hgoes⟩ := hapart.2.2 earlier hearlier entry List.mem_cons_self
  rw [Bool.not_eq_true', Bool.eq_false_iff, ne_eq, List.isPrefixOf_iff_prefix]
  exact not_prefix_append hnot hgoes hrest

theorem read_spelling {t : Token} {w rest : List Char} (h : t.Spelling w) (hrest : Delimits rest) :
    Token.read (w ++ rest) = some (t, w.length) := by
  cases h with
  | sign hs =>
      rcases mem_spellings_of_sign hs with htable | ⟨hword, rfl⟩
      · rw [Token.read, find?_spelling htable hrest]
      · exact read_word hword hrest
  | name hname =>
      have hread := read_word hname.isWord hrest
      rwa [hname.ofWord] at hread

end Elenchus
