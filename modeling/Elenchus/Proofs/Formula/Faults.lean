import Mathlib.Data.List.DropRight
import Elenchus.Proofs.Formula.Parentheses
import Elenchus.Proofs.Formula.Reading

/-!
# Errors point at the fault

An error of a text says where the text is at fault, and that is so (`Formula.parse_locates`): a
parenthesis that it calls unclosed is the last one that none closes, one that it calls unopened
closes none, and what it quotes is the text from the fault on.

The reader knows of the tokens that are left and of the parentheses that are open.  `Fault` says what
an error holds of these, and `Tracks` follows a reading: it uses up tokens and leaves the open
parentheses as it should, or its error is at fault in the tokens it was given.  There is one
statement for each function of the reader, put together from those for `pure`, `throw`, `>>=` and the
two checks of the limit.
-/

namespace Elenchus

namespace Reading

/-- The tokens before `rest` are used up, and the parentheses in `left` are open then. -/
def Uses (opens : List Nat) (tokens rest : List Lexeme) (left : List Nat) : Prop :=
  ∃ used, tokens = used ++ rest ∧ openedByTokens opens used = left

/-- What an error says of the tokens that are left, `opens` being the parentheses open before
them. -/
inductive Fault (source : Source) (opens : List Nat) (tokens : List Lexeme) :
    FormulaError → Prop
  | unexpected {before after : List Lexeme} {l : Lexeme} : tokens = before ++ l :: after →
      Fault source opens tokens (.unexpected l.token l.start (fragmentFrom source.chars l.start))
  | unexpectedEnd : Fault source opens tokens (.unexpectedEnd source.stop)
  | unclosed {offset : Nat} {outer : List Nat} : openedByTokens opens tokens = offset :: outer →
      Fault source opens tokens (.unclosed offset (fragmentFrom source.chars offset))
  | unopened {before after : List Lexeme} {l : Lexeme} : tokens = before ++ l :: after →
      l.token = .closeParen → openedByTokens opens before = [] →
      Fault source opens tokens (.unopened l.start)
  | trailing {before after : List Lexeme} {l : Lexeme} : tokens = before ++ l :: after →
      Fault source opens tokens (.trailing l.start (fragmentFrom source.chars l.start))
  | tooDeep {before after : List Lexeme} {l : Lexeme} : tokens = before ++ l :: after →
      Fault source opens tokens (tooDeep source l.start)

section
variable {opens mid left : List Nat} {tokens next rest : List Lexeme} {l : Lexeme}
  {source : Source} {error : FormulaError}

theorem uses_nil : Uses opens tokens tokens opens := ⟨[], rfl, rfl⟩

theorem Uses.cons (h : Uses (openedByToken opens l) tokens rest left) :
    Uses opens (l :: tokens) rest left := by
  obtain ⟨used, rfl, hleft⟩ := h
  exact ⟨l :: used, rfl, hleft⟩

theorem Uses.trans (h : Uses opens tokens next mid) (h' : Uses mid next rest left) :
    Uses opens tokens rest left := by
  obtain ⟨used, rfl, rfl⟩ := h
  obtain ⟨used', rfl, rfl⟩ := h'
  exact ⟨used ++ used', (List.append_assoc ..).symm, openedByTokens_append⟩

/-- What is at fault in the tokens that are left is at fault in all. -/
theorem Fault.after (h : Fault source mid next error) (huses : Uses opens tokens next mid) :
    Fault source opens tokens error := by
  obtain ⟨used, rfl, rfl⟩ := huses
  cases h with
  | unexpected hnext => exact .unexpected (by rw [hnext, ← List.append_assoc])
  | unexpectedEnd => exact .unexpectedEnd
  | unclosed hopens => exact .unclosed (openedByTokens_append.trans hopens)
  | unopened hnext hl hopens =>
      exact .unopened (by rw [hnext, ← List.append_assoc]) hl (openedByTokens_append.trans hopens)
  | trailing hnext => exact .trailing (by rw [hnext, ← List.append_assoc])
  | tooDeep hnext => exact .tooDeep (by rw [hnext, ← List.append_assoc])

theorem fault_unexpected : Fault source opens tokens (unexpected source opens tokens) := by
  unfold unexpected
  split
  next =>
    split
    · exact .unexpectedEnd
    · exact .unclosed rfl
  next token offset stop more =>
    have htokens : ⟨token, offset, stop⟩ :: more = [] ++ ⟨token, offset, stop⟩ :: more := rfl
    split
    next hclose => exact .unopened htokens hclose.1 hclose.2
    next => exact .unexpected htokens

end

/-! ## Steps of a reading -/

/-- A reading uses up tokens such that the parentheses in `left` are open, or its error is at
fault. -/
structure Tracks {α : Type} {P : List Lexeme → Prop} (source : Source) (opens : List Nat)
    (tokens : List Lexeme) (left : List Nat)
    (answer : Except FormulaError (α × { rest : List Lexeme // P rest })) : Prop where
  uses : ∀ a, answer = .ok a → Uses opens tokens a.2 left
  fault : ∀ error, answer = .error error → Fault source opens tokens error

section
variable {α β : Type} {P Q : List Lexeme → Prop} {source : Source} {opens mid left : List Nat}
  {tokens next : List Lexeme} {l : Lexeme}
  {answer : Except FormulaError (α × { rest : List Lexeme // P rest })}

theorem tracks_pure {a : α} {h : P next} (huses : Uses opens tokens next left) :
    Tracks source opens tokens left
      (pure (a, ⟨next, h⟩) : Except FormulaError (α × { rest // P rest })) where
  uses b hb := by
    cases hb
    exact huses
  fault error herror := by cases herror

theorem tracks_throw {error : FormulaError} (h : Fault source opens tokens error) :
    Tracks source opens tokens left
      (throw error : Except FormulaError (α × { rest // P rest })) where
  uses b hb := by cases hb
  fault error herror := by
    cases herror
    exact h

theorem Tracks.after (h : Tracks source mid next left answer) (huses : Uses opens tokens next mid) :
    Tracks source opens tokens left answer :=
  ⟨fun a ha => huses.trans (h.uses a ha), fun error herror => (h.fault error herror).after huses⟩

/-- A token is passed. -/
theorem Tracks.cons (h : Tracks source (openedByToken opens l) tokens left answer) :
    Tracks source opens (l :: tokens) left answer :=
  h.after uses_nil.cons

theorem Tracks.bind {first : Except FormulaError (β × { rest // Q rest })}
    {later : β × { rest // Q rest } → Except FormulaError (α × { rest // P rest })}
    (hfirst : Tracks source opens tokens mid first)
    (hlater : ∀ b next h, Uses opens tokens next mid →
      Tracks source opens tokens left (later (b, ⟨next, h⟩))) :
    Tracks source opens tokens left (first >>= later) := by
  cases first with
  | error error => exact tracks_throw (hfirst.fault error rfl)
  | ok b => exact hlater b.1 b.2.1 b.2.2 (hfirst.uses b rfl)

/-- An opening parenthesis is passed, within the limit or at fault. -/
theorem Tracks.opened {later : List Nat → Except FormulaError (α × { rest // P rest })}
    (hl : l.token = .openParen)
    (hlater : Tracks source (l.start :: opens) tokens left (later (l.start :: opens))) :
    Tracks source opens (l :: tokens) left (Reading.opened source opens l.start >>= later) := by
  have hopened : openedByToken opens l = l.start :: opens := by rw [openedByToken, hl]
  unfold Reading.opened
  split
  · exact tracks_throw (.tooDeep (List.nil_append _).symm)
  · refine Tracks.cons ?_
    rw [hopened]
    exact hlater

/-- Formulas are joined by the first of the tokens, within the limit or at fault. -/
theorem Tracks.joined {later : Formula → Except FormulaError (α × { rest // P rest })}
    {f : Formula} (hlater : Tracks source opens (l :: tokens) left (later f)) :
    Tracks source opens (l :: tokens) left (Reading.joined source f l.start >>= later) := by
  unfold Reading.joined
  split
  · exact tracks_throw (.tooDeep (List.nil_append _).symm)
  · exact hlater

end

/-! ## Terms -/

section
variable (source : Source)

mutual

theorem tracks_term (opens : List Nat) (tokens : List Lexeme) :
    Tracks source opens tokens opens (term source opens tokens) := by
  rw [term.eq_def]
  split
  next name start stop offset stop' inside =>
    refine .cons (.opened (l := ⟨.openParen, offset, stop'⟩) rfl ?_)
    exact (tracks_arguments (offset :: opens) inside).bind fun _ _ _ => tracks_pure
  next name start stop more hplain => exact tracks_pure uses_nil.cons
  next => exact tracks_throw fault_unexpected
termination_by (tokens.length, 0)

theorem tracks_arguments (opens : List Nat) (tokens : List Lexeme) :
    Tracks source opens tokens opens.tail (arguments source opens tokens) := by
  rw [arguments.eq_def]
  split
  next start stop more => exact tracks_pure uses_nil.cons
  next => exact tracks_argumentList opens tokens
termination_by (tokens.length, 3)

theorem tracks_argumentList (opens : List Nat) (tokens : List Lexeme) :
    Tracks source opens tokens opens.tail (argumentList source opens tokens) := by
  rw [argumentList.eq_def]
  refine (tracks_pieces opens tokens).bind fun parts next h huses => ?_
  dsimp only
  by_cases hparts : parts = []
  · rw [if_pos hparts]
    exact tracks_throw fault_unexpected
  · rw [if_neg hparts]
    split
    next start stop more =>
      refine .after (.cons ?_) huses
      exact (tracks_argumentList opens more).bind fun _ _ _ => tracks_pure
    next start stop rest => exact (tracks_pure uses_nil.cons).after huses
    next => exact tracks_throw (fault_unexpected.after huses)
termination_by (tokens.length, 2)

theorem tracks_pieces (opens : List Nat) (tokens : List Lexeme) :
    Tracks source opens tokens opens (pieces source opens tokens) := by
  rw [pieces.eq_def]
  split
  next name start stop more =>
    have hterm := tracks_term opens (⟨.name name, start, stop⟩ :: more)
    refine hterm.bind fun first next h huses => .after ?_ huses
    exact (tracks_pieces opens next).bind fun _ _ _ => tracks_pure
  next value start stop more =>
    exact .cons ((tracks_pieces opens more).bind fun _ _ _ => tracks_pure)
  next op start stop more =>
    exact .cons ((tracks_pieces opens more).bind fun _ _ _ => tracks_pure)
  next => exact tracks_pure uses_nil
termination_by (tokens.length, 1)
decreasing_by
  all_goals subst_vars
  · exact Prod.Lex.right _ Nat.zero_lt_one
  · exact Prod.Lex.left _ _ h
  all_goals exact Prod.Lex.left _ _ (Nat.lt_succ_self _)

end

theorem tracks_atom (opens : List Nat) (tokens : List Lexeme) :
    Tracks source opens tokens opens (atom source opens tokens) := by
  rw [atom.eq_def]
  refine (tracks_term source opens tokens).bind fun left next h huses => ?_
  dsimp only
  refine .after ?_ huses
  split
  next => exact tracks_pure uses_nil.cons.cons
  next op start stop name start' stop' more =>
    exact .cons ((tracks_term source opens _).bind fun _ _ _ => tracks_pure)
  next => exact .cons (tracks_throw fault_unexpected)
  next => exact tracks_pure uses_nil

/-! ## Formulas -/

mutual

theorem tracks_chain (c : Connective) (opens : List Nat) (tokens : List Lexeme) :
    Tracks source opens tokens opens (chain source c opens tokens) := by
  rw [chain]
  refine (tracks_operand c opens tokens).bind fun first next h huses => ?_
  refine .after ?_ huses
  exact (tracks_links c opens first next).bind fun _ _ _ => tracks_pure
termination_by (tokens.length, 2 * (5 - c.strength) + 1)

theorem tracks_operand (c : Connective) (opens : List Nat) (tokens : List Lexeme) :
    Tracks source opens tokens opens (operand source c opens tokens) := by
  rw [operand.eq_def]
  cases c with
  | iff => exact tracks_chain .implies opens tokens
  | implies => exact tracks_chain .or opens tokens
  | or => exact tracks_chain .and opens tokens
  | and => exact tracks_negation 0 opens tokens
termination_by (tokens.length, 2 * (5 - c.strength))
decreasing_by all_goals exact Prod.Lex.right _ (by decide)

theorem tracks_links (c : Connective) (opens : List Nat) (first : Formula)
    (tokens : List Lexeme) :
    Tracks source opens tokens opens (links source c opens first tokens) := by
  rw [links.eq_def]
  split
  next d offset stop more =>
    split
    next =>
      split
      next =>
        refine (tracks_chain c opens more).cons.bind fun second rest h huses => ?_
        exact .joined (l := ⟨.connective d, offset, stop⟩) (tracks_pure huses)
      next =>
        refine (tracks_operand c opens more).cons.bind fun second next h huses => ?_
        refine .joined (l := ⟨.connective d, offset, stop⟩) (.after ?_ huses)
        exact (tracks_links c opens _ next).bind fun _ _ _ => tracks_pure
    next => exact tracks_pure uses_nil
  next => exact tracks_pure uses_nil
termination_by (tokens.length, 0)
decreasing_by
  all_goals subst_vars
  · exact Prod.Lex.left _ _ (Nat.lt_succ_self _)
  · exact Prod.Lex.left _ _ (Nat.lt_succ_of_lt h)
  · exact Prod.Lex.left _ _ (Nat.lt_succ_self _)

theorem tracks_negation (depth : Nat) (opens : List Nat) (tokens : List Lexeme) :
    Tracks source opens tokens opens (negation source depth opens tokens) := by
  rw [negation.eq_def]
  split
  next offset stop more =>
    split
    next => exact tracks_throw (.tooDeep (l := ⟨.not, offset, stop⟩) (List.nil_append _).symm)
    next =>
      refine (tracks_negation (depth + 1) opens more).cons.bind fun body rest h huses => ?_
      exact .joined (l := ⟨.not, offset, stop⟩) (tracks_pure huses)
  next => exact tracks_primary opens tokens
termination_by (tokens.length, 1)

theorem tracks_primary (opens : List Nat) (tokens : List Lexeme) :
    Tracks source opens tokens opens (primary source opens tokens) := by
  rw [primary.eq_def]
  split
  next offset stop more =>
    refine .opened (l := ⟨.openParen, offset, stop⟩) rfl ?_
    refine (tracks_chain .iff (offset :: opens) more).bind fun whole next h huses => ?_
    dsimp only
    refine .after ?_ huses
    split
    next => exact tracks_pure uses_nil.cons
    next => exact tracks_throw fault_unexpected
  next => exact tracks_pure uses_nil.cons
  next => exact tracks_atom source opens _
  next => exact tracks_throw fault_unexpected
termination_by (tokens.length, 0)

end

end

/-- An error of a list of tokens is at fault in it, unless the list is empty. -/
theorem fault_ofTokens {source : Source} {tokens : List Lexeme} {error : FormulaError}
    (hne : tokens ≠ []) (h : Formula.ofTokens source tokens = .error error) :
    Fault source [] tokens error := by
  have htracks := tracks_chain source .iff [] tokens
  cases tokens with
  | nil => exact absurd rfl hne
  | cons l more =>
      rw [Formula.ofTokens] at h
      · cases hchain : chain source .iff [] (l :: more) with
        | error error' =>
            rw [hchain] at h
            cases h
            exact htracks.fault error hchain
        | ok answer =>
            obtain ⟨f, rest, hrest⟩ := answer
            obtain ⟨used, htokens, hopens⟩ := htracks.uses _ hchain
            rw [hchain] at h
            cases rest with
            | nil => cases h
            | cons next rest =>
                obtain ⟨token, start, stop⟩ := next
                simp only [bind, Except.bind] at h
                split at h
                next hclose =>
                  cases h
                  exact .unopened htokens hclose hopens
                next =>
                  cases h
                  exact .trailing htokens
      · exact hne

end Reading

/-! ## What errors say of the text -/

/-- A text without the white space at either end. -/
structure Trims (cs trimmed : List Char) : Prop where
  part : ∃ left right, cs = left ++ (trimmed ++ right) ∧
    ∀ c ∈ left ++ right, Text.isBlank c = true
  head : ∀ c, trimmed.head? = some c → Text.isBlank c = false
  last : ∀ c, trimmed.getLast? = some c → Text.isBlank c = false

theorem trims_trim (cs : List Char) : Trims cs (Text.trim cs) := by
  have hfront := List.takeWhile_append_dropWhile (p := Text.isBlank) (l := cs)
  -- The other end is trimmed from behind.
  have hback : cs.dropWhile Text.isBlank =
      Text.trim cs ++ (cs.dropWhile Text.isBlank).rtakeWhile Text.isBlank := by
    rw [Text.trim, List.rtakeWhile, ← List.reverse_append, List.takeWhile_append_dropWhile,
      List.reverse_reverse]
  constructor
  · refine ⟨cs.takeWhile Text.isBlank, (cs.dropWhile Text.isBlank).rtakeWhile Text.isBlank, ?_, ?_⟩
    · rw [← hback, hfront]
    · refine List.forall_mem_append.mpr ⟨fun c hc => List.mem_takeWhile_imp hc, fun c hc => ?_⟩
      exact List.mem_rtakeWhile_imp hc
  · intro c hc
    have hnot := List.head?_dropWhile_not Text.isBlank cs
    rw [hback, List.head?_append, hc] at hnot
    simpa using hnot
  · intro c hc
    obtain ⟨hne, rfl⟩ := List.mem_getLast?_eq_getLast hc
    exact Bool.eq_false_iff.mpr (List.rdropWhile_last_not Text.isBlank _ hne)

/-- The text from an offset on, trimmed, is quoted. -/
def Quotes (source : List Char) (offset : Nat) (fragment : String) : Prop :=
  Trims (source.drop offset) fragment.toList

/-- A token is written at an offset. -/
def StandsAt (source : List Char) (offset : Nat) (token : Token) : Prop :=
  ∃ w after, source.drop offset = w ++ after ∧ token.Spelling w

/-- What an error says of a text that is read. -/
def FormulaError.Locates (source : List Char) : FormulaError → Prop
  | .empty => ∀ c ∈ source, Text.isBlank c = true
  | .foreignCharacter char offset => source[offset]? = some char ∧ IsForeign char
  | .unexpected found offset fragment =>
    StandsAt source offset found ∧ Quotes source offset fragment
  | .unexpectedEnd offset => offset = source.length
  | .unclosed offset fragment =>
    (IsUnclosed source offset ∧ ∀ i, IsUnclosed source i → i ≤ offset) ∧
      Quotes source offset fragment
  | .unopened offset => IsUnopened source offset
  | .trailing offset fragment =>
    (∃ token, StandsAt source offset token) ∧ Quotes source offset fragment
  | .tooLarge _ => False
  | .tooDeep limit offset fragment =>
    limit = maxNesting ∧ (∃ token, StandsAt source offset token) ∧
      ∃ whole, Quotes source offset whole ∧ fragment.toList = whole.toList.take 32

theorem quotes_fragmentFrom (source : List Char) (offset : Nat) :
    Quotes source offset (fragmentFrom source offset) := by
  rw [Quotes, fragmentFrom, String.toList_ofList]
  exact trims_trim _

theorem Tiles.standsAt {source : List Char} {tokens before after : List Lexeme} {l : Lexeme}
    (h : Tiles 0 source tokens) (htokens : tokens = before ++ l :: after) :
    StandsAt source l.start l.token := by
  subst htokens
  obtain ⟨text, w, rest, rfl, hspelling, hstart, _⟩ := h.split
  rw [Nat.zero_add] at hstart
  exact ⟨w, rest, by rw [hstart, List.drop_left], hspelling⟩

/-- What is at fault in the tokens of a text is at fault in the text. -/
theorem Reading.Fault.locates {source : Source} {tokens : List Lexeme} {error : FormulaError}
    (h : Fault source [] tokens error) (htiles : Tiles 0 source.chars tokens)
    (hstop : source.stop = source.chars.length) : error.Locates source.chars := by
  cases h with
  | unexpected htokens => exact ⟨htiles.standsAt htokens, quotes_fragmentFrom _ _⟩
  | unexpectedEnd => exact hstop
  | unclosed hopens =>
      rw [← htiles.pending_eq] at hopens
      exact ⟨isUnclosed_of_pending hopens, quotes_fragmentFrom _ _⟩
  | unopened htokens hl hopens =>
      subst htokens
      obtain ⟨text, w, rest, hchars, hspelling, hstart, hbefore⟩ := htiles.split
      rw [← hbefore.pending_eq] at hopens
      rw [hl] at hspelling
      rw [Nat.zero_add] at hstart
      cases hspelling with
      | sign hs =>
          rw [hchars, hstart, List.mem_singleton.mp hs]
          exact isUnopened_of_pending hopens
  | trailing htokens => exact ⟨⟨_, htiles.standsAt htokens⟩, quotes_fragmentFrom _ _⟩
  | tooDeep htokens =>
      refine ⟨rfl, ⟨_, htiles.standsAt htokens⟩, _, quotes_fragmentFrom _ _, ?_⟩
      rw [String.toList_ofList]
      rfl

theorem StandsAt.lt_length {source : List Char} {offset : Nat} {token : Token}
    (h : StandsAt source offset token) : offset < source.length := by
  obtain ⟨w, after, heq, hspelling⟩ := h
  have hpos := List.length_pos_iff.mpr hspelling.ne_nil
  have hlength := congrArg List.length heq
  rw [List.length_drop, List.length_append] at hlength
  omega

/-- No error points past the end of the text. -/
theorem FormulaError.Locates.le_length {source : List Char} {error : FormulaError}
    (h : error.Locates source) : ∀ offset, error.offset? = some offset → offset ≤ source.length := by
  intro offset hoffset
  cases error with
  | empty => cases hoffset
  | tooLarge => cases hoffset
  | foreignCharacter char offset' =>
      cases hoffset
      exact Nat.le_of_lt (List.getElem?_eq_some_iff.mp h.1).1
  | unexpected found offset' fragment =>
      cases hoffset
      exact Nat.le_of_lt h.1.lt_length
  | unexpectedEnd offset' =>
      cases hoffset
      exact Nat.le_of_eq h
  | unclosed offset' fragment =>
      cases hoffset
      exact Nat.le_of_lt (List.getElem?_eq_some_iff.mp h.1.1.1).1
  | unopened offset' =>
      cases hoffset
      exact Nat.le_of_lt (List.getElem?_eq_some_iff.mp h.1).1
  | trailing offset' fragment =>
      cases hoffset
      obtain ⟨⟨token, htoken⟩, _⟩ := h
      exact Nat.le_of_lt htoken.lt_length
  | tooDeep limit offset' fragment =>
      cases hoffset
      obtain ⟨_, ⟨token, htoken⟩, _⟩ := h
      exact Nat.le_of_lt htoken.lt_length

/-- A text without tokens is white space. -/
theorem Tiles.eq_nil_iff {pos : Nat} {cs : List Char} {ls : List Lexeme} (h : Tiles pos cs ls) :
    ls = [] ↔ ∀ c ∈ cs, Text.isBlank c = true := by
  induction h with
  | nil => exact ⟨fun _ => List.forall_mem_nil _, fun _ => rfl⟩
  | blank hc _ ih => rw [ih, List.forall_mem_cons, and_iff_right hc]
  | @token pos t w cs ls hspelling _ _ =>
      obtain ⟨c, more, rfl⟩ := List.exists_cons_of_ne_nil hspelling.ne_nil
      have hc := isBlank_of_isTokenChar (hspelling.isTokenChar c List.mem_cons_self)
      refine ⟨fun hnil => absurd hnil (List.cons_ne_nil _ _), fun hblank => ?_⟩
      rw [hblank c (List.mem_append_left _ List.mem_cons_self)] at hc
      cases hc

/-- A text is refused as empty exactly when it is all white space, and whatever error it is refused
with says where it is at fault. -/
theorem Formula.parse_locates (text : String) :
    (Formula.parse text = .error .empty ↔ ∀ c ∈ text.toList, Text.isBlank c = true) ∧
      match Formula.parse text with
      | .ok _ => True
      | .error error => error.Locates text.toList ∧
          ∀ offset, error.offset? = some offset → offset ≤ text.toList.length := by
  have hspec := lexemes_spec 0 text.toList
  cases hlexemes : lexemes 0 0 text.toList with
  | error error =>
      have hparse : Formula.parse text = .error error := by
        rw [Formula.parse, tokenize, hlexemes]
        rfl
      rw [hlexemes] at hspec
      obtain ⟨before, c, after, heq, _, hc, rfl⟩ := hspec
      have hlocates : (FormulaError.foreignCharacter c (0 + before.length)).Locates text.toList := by
        rw [heq, Nat.zero_add]
        exact ⟨getElem?_append_cons, hc⟩
      rw [hparse]
      refine ⟨⟨fun h => (by cases h), fun hblank => ?_⟩, hlocates, hlocates.le_length⟩
      have hforeign := hc.1
      rw [hblank c (by rw [heq]; simp)] at hforeign
      cases hforeign
  | ok read =>
      have hparse : Formula.parse text =
          Formula.ofTokens ⟨text.toList, read.stop⟩ read.lexemes := by
        rw [Formula.parse, tokenize, hlexemes]
        rfl
      have htiles := tiles_of_lexemes hlexemes
      rw [hparse, ← htiles.eq_nil_iff]
      by_cases hnil : read.lexemes = []
      · have hblank := htiles.eq_nil_iff.mp hnil
        rw [hnil]
        exact ⟨⟨fun _ => rfl, fun _ => rfl⟩, hblank, fun offset hoffset => by cases hoffset⟩
      · cases hanswer : Formula.ofTokens ⟨text.toList, read.stop⟩ read.lexemes with
        | ok f => exact ⟨⟨fun h => (by cases h), fun h => absurd h hnil⟩, trivial⟩
        | error error =>
            have hfault := Reading.fault_ofTokens hnil hanswer
            have hlocates := hfault.locates htiles (lossless_of_lexemes hlexemes).ending
            refine ⟨⟨fun h => ?_, fun h => absurd h hnil⟩, hlocates, hlocates.le_length⟩
            cases h
            cases hfault

end Elenchus
