import Elenchus.Proofs.Formula.Grammar

/-!
# What each reading takes

The reader of formulas is a family of functions that return beside their result what is left of the
tokens.  `Reading.Reads` says of an answer what it is, without the proof in it that something was
taken.  For each function there is one statement of all that it can read, an `iff` under the choice
that its first token makes; errors and offsets are gone in it.  What is proved of the reader
elsewhere is proved from these statements.
-/

namespace Elenchus.Reading

open Grammar

section
variable {α β : Type} {P Q : List Lexeme → Prop} {source : Source} {opens : List Nat}
  {rest : List Lexeme}

/-- A reading gives a result and leaves the given tokens. -/
def Reads (answer : Except FormulaError (α × { rest : List Lexeme // P rest })) (result : α)
    (rest : List Lexeme) : Prop :=
  ∃ h, answer = .ok (result, ⟨rest, h⟩)

/-- The token that comes next. -/
def next? (tokens : List Lexeme) : Option Token := tokens.head?.map (·.token)

theorem next?_eq_some_iff {tokens : List Lexeme} {t : Token} :
    next? tokens = some t ↔ ∃ l more, tokens = l :: more ∧ l.token = t := by
  cases tokens <;> simp [next?]

/-! ## Steps of a reading -/

theorem reads_pure {a result : α} {left : List Lexeme} {h : P left} :
    Reads (pure (a, ⟨left, h⟩) : Except FormulaError (α × { rest // P rest })) result rest ↔
      result = a ∧ rest = left := by
  constructor
  · rintro ⟨_, heq⟩
    cases heq
    exact ⟨rfl, rfl⟩
  · rintro ⟨rfl, rfl⟩
    exact ⟨h, rfl⟩

theorem reads_throw {error : FormulaError} {result : α} :
    Reads (throw error : Except FormulaError (α × { rest // P rest })) result rest ↔ False := by
  refine ⟨?_, False.elim⟩
  rintro ⟨_, heq⟩
  cases heq

theorem reads_bind {first : Except FormulaError (β × { rest // Q rest })}
    {after : β × { rest // Q rest } → Except FormulaError (α × { rest // P rest })} {result : α} :
    Reads (first >>= after) result rest ↔
      ∃ b next h, first = .ok (b, ⟨next, h⟩) ∧ Reads (after (b, ⟨next, h⟩)) result rest := by
  cases first with
  | error error =>
      constructor
      · rintro ⟨_, heq⟩
        cases heq
      · rintro ⟨_, _, _, heq, _⟩
        cases heq
  | ok answer =>
      obtain ⟨b, next, h⟩ := answer
      constructor
      · intro hafter
        exact ⟨b, next, h, rfl, hafter⟩
      · rintro ⟨_, _, _, heq, hafter⟩
        cases heq
        exact hafter

/-- A reading whose result is put into a larger one. -/
theorem reads_bind_pure (build : β → α) {first : Except FormulaError (β × { rest // Q rest })}
    {hrest : ∀ answer : β × { rest // Q rest }, P answer.2.1} {result : α} :
    Reads (first >>= fun answer => pure (build answer.1, ⟨answer.2.1, hrest answer⟩)) result rest ↔
      ∃ b, Reads first b rest ∧ result = build b := by
  rw [reads_bind]
  constructor
  · rintro ⟨b, next, h, hfirst, hpure⟩
    obtain ⟨rfl, rfl⟩ := reads_pure.mp hpure
    exact ⟨b, ⟨h, hfirst⟩, rfl⟩
  · rintro ⟨b, ⟨h, hfirst⟩, rfl⟩
    exact ⟨b, rest, h, hfirst, reads_pure.mpr ⟨rfl, rfl⟩⟩

/-- A parenthesis is opened within the limit. -/
theorem reads_opened {offset : Nat}
    {after : List Nat → Except FormulaError (α × { rest // P rest })} {result : α} :
    Reads (opened source opens offset >>= after) result rest ↔
      opens.length < maxNesting ∧ Reads (after (offset :: opens)) result rest := by
  unfold opened
  split
  · refine ⟨?_, fun h => by omega⟩
    rintro ⟨_, heq⟩
    cases heq
  · exact ⟨fun h => ⟨by omega, h⟩, fun h => h.2⟩

/-- Formulas are joined within the limit. -/
theorem reads_joined {f : Formula} {offset : Nat}
    {after : Formula → Except FormulaError (α × { rest // P rest })} {result : α} :
    Reads (joined source f offset >>= after) result rest ↔
      f.height ≤ maxNesting ∧ Reads (after f) result rest := by
  unfold joined
  split
  · refine ⟨?_, fun h => by omega⟩
    rintro ⟨_, heq⟩
    cases heq
  · exact ⟨fun h => ⟨by omega, h⟩, fun h => h.2⟩

end

section
variable {source : Source} {opens : List Nat} {tokens rest : List Lexeme} {l : Lexeme}

/-! ## Terms -/

theorem reads_term {text : String} :
    Reads (term source opens tokens) text rest ↔
      (∃ l, tokens = l :: rest ∧ l.token = .name text ∧ next? rest ≠ some .openParen) ∨
      ∃ l paren inside name args, tokens = l :: paren :: inside ∧ l.token = .name name ∧
        paren.token = .openParen ∧ opens.length < maxNesting ∧
        Reads (arguments source (paren.start :: opens) inside) args rest ∧
        text = name ++ "(" ++ ", ".intercalate args ++ ")" := by
  unfold term
  split
  next name start stop offset stop' inside =>
    rw [reads_opened]
    dsimp only
    rw [reads_bind_pure fun args => name ++ "(" ++ ", ".intercalate args ++ ")"]
    constructor
    · rintro ⟨hopen, args, hargs, rfl⟩
      exact .inr ⟨_, _, _, name, args, rfl, rfl, rfl, hopen, hargs, rfl⟩
    · rintro (⟨l, htokens, _, hnext⟩ |
        ⟨l, paren, inside, name, args, htokens, hl, _, hopen, hargs, rfl⟩)
      · cases htokens
        exact absurd rfl hnext
      · cases htokens
        cases hl
        exact ⟨hopen, args, hargs, rfl⟩
  next name start stop tokens hplain =>
    rw [reads_pure]
    constructor
    · rintro ⟨rfl, rfl⟩
      refine .inl ⟨_, rfl, rfl, fun hnext => ?_⟩
      obtain ⟨⟨_, offset, stop⟩, inside, rfl, rfl⟩ := next?_eq_some_iff.mp hnext
      exact hplain offset stop inside rfl
    · rintro (⟨l, htokens, hl, _⟩ | ⟨l, ⟨_, offset, stop⟩, inside, name, args, htokens, _, rfl, _⟩)
      · cases htokens
        cases hl
        exact ⟨rfl, rfl⟩
      · cases htokens
        exact (hplain offset stop inside rfl).elim
  next happlied hname =>
    rw [reads_throw, false_iff]
    rintro (⟨⟨_, start, stop⟩, rfl, rfl, _⟩ |
      ⟨⟨_, start, stop⟩, paren, inside, name, args, rfl, rfl, _⟩)
    · exact hname _ start stop rest rfl
    · exact hname name start stop (paren :: inside) rfl

/-- A term begins with a name. -/
theorem next?_of_reads_term {text : String} (h : Reads (term source opens tokens) text rest) :
    ∃ name, next? tokens = some (.name name) := by
  rcases reads_term.mp h with ⟨l, rfl, hl, _⟩ | ⟨l, paren, inside, name, args, rfl, hl, _⟩
  · exact ⟨text, congrArg some hl⟩
  · exact ⟨name, congrArg some hl⟩

theorem reads_arguments_close {args : List String} (hl : l.token = .closeParen) :
    Reads (arguments source opens (l :: tokens)) args rest ↔ args = [] ∧ rest = tokens := by
  obtain ⟨_, start, stop⟩ := l
  cases hl
  rw [arguments, reads_pure]

theorem arguments_eq (h : next? tokens ≠ some .closeParen) :
    arguments source opens tokens = argumentList source opens tokens := by
  rw [arguments]
  rintro start stop more rfl
  exact h rfl

theorem reads_argumentList {args : List String} :
    Reads (argumentList source opens tokens) args rest ↔
      ∃ parts next, Reads (pieces source opens tokens) parts next ∧ parts ≠ [] ∧
        ((∃ l more later, next = l :: more ∧ l.token = .comma ∧
            Reads (argumentList source opens more) later rest ∧
            args = " ".intercalate parts :: later) ∨
          ∃ l, next = l :: rest ∧ l.token = .closeParen ∧ args = [" ".intercalate parts]) := by
  rw [argumentList.eq_def, reads_bind]
  dsimp only
  refine exists_congr fun parts => exists_congr fun next => ?_
  constructor
  · rintro ⟨h, hpieces, hafter⟩
    by_cases hparts : parts = []
    · rw [if_pos hparts] at hafter
      obtain ⟨_, heq⟩ := hafter
      cases heq
    · rw [if_neg hparts] at hafter
      refine ⟨⟨h, hpieces⟩, hparts, ?_⟩
      split at hafter
      next more =>
        obtain ⟨later, hlist, rfl⟩ := (reads_bind_pure _).mp hafter
        exact .inl ⟨_, more, later, rfl, rfl, hlist, rfl⟩
      next =>
        obtain ⟨rfl, rfl⟩ := reads_pure.mp hafter
        exact .inr ⟨_, rfl, rfl, rfl⟩
      next => exact (reads_throw.mp hafter).elim
  · rintro ⟨⟨h, hpieces⟩, hparts, hafter⟩
    refine ⟨h, hpieces, ?_⟩
    rw [if_neg hparts]
    rcases hafter with ⟨⟨_, _, _⟩, more, later, rfl, rfl, hlist, rfl⟩ | ⟨⟨_, _, _⟩, rfl, rfl, rfl⟩
    · exact (reads_bind_pure _).mpr ⟨later, hlist, rfl⟩
    · exact reads_pure.mpr ⟨rfl, rfl⟩

theorem reads_pieces_name {name : String} {parts : List String}
    (h : next? tokens = some (.name name)) :
    Reads (pieces source opens tokens) parts rest ↔
      ∃ text next more, Reads (term source opens tokens) text next ∧
        Reads (pieces source opens next) more rest ∧ parts = text :: more := by
  obtain ⟨⟨_, start, stop⟩, tokens, rfl, rfl⟩ := next?_eq_some_iff.mp h
  rw [pieces, reads_bind]
  constructor
  · rintro ⟨text, next, h, hterm, hafter⟩
    obtain ⟨more, hmore, rfl⟩ := (reads_bind_pure _).mp hafter
    exact ⟨text, next, more, ⟨h, hterm⟩, hmore, rfl⟩
  · rintro ⟨text, next, more, ⟨h, hterm⟩, hmore, rfl⟩
    exact ⟨text, next, h, hterm, (reads_bind_pure _).mpr ⟨more, hmore, rfl⟩⟩

theorem reads_pieces_const {value : Bool} {parts : List String} (hl : l.token = .const value) :
    Reads (pieces source opens (l :: tokens)) parts rest ↔
      ∃ more, Reads (pieces source opens tokens) more rest ∧
        parts = constantWord value :: more := by
  obtain ⟨_, start, stop⟩ := l
  cases hl
  rw [pieces, reads_bind_pure]

theorem reads_pieces_compare {op : Comparison} {parts : List String} (hl : l.token = .compare op) :
    Reads (pieces source opens (l :: tokens)) parts rest ↔
      ∃ more, Reads (pieces source opens tokens) more rest ∧ parts = op.sign :: more := by
  obtain ⟨_, start, stop⟩ := l
  cases hl
  rw [pieces, reads_bind_pure]

/-- Tokens that go on with no part of an argument. -/
def EndsPieces (tokens : List Lexeme) : Prop :=
  (∀ name, next? tokens ≠ some (.name name)) ∧ (∀ value, next? tokens ≠ some (.const value)) ∧
    ∀ op, next? tokens ≠ some (.compare op)

theorem reads_pieces_end {parts : List String} (h : EndsPieces tokens) :
    Reads (pieces source opens tokens) parts rest ↔ parts = [] ∧ rest = tokens := by
  rw [pieces, reads_pure]
  · rintro name start stop tokens rfl
    exact h.1 name rfl
  · rintro value start stop tokens rfl
    exact h.2.1 value rfl
  · rintro op start stop tokens rfl
    exact h.2.2 op rfl

/-! ## Atoms -/

theorem reads_atom {f : Formula} :
    Reads (atom source opens tokens) f rest ↔
      ∃ left next, Reads (term source opens tokens) left next ∧
        ((∃ l r op value, next = l :: r :: rest ∧ l.token = .compare op ∧ r.token = .const value ∧
            f = .atom (left ++ " " ++ op.sign ++ " " ++ constantWord value)) ∨
          (∃ l more op right, next = l :: more ∧ l.token = .compare op ∧
            Reads (term source opens more) right rest ∧
            f = .atom (left ++ " " ++ op.sign ++ " " ++ right)) ∨
          ((∀ op, next? next ≠ some (.compare op)) ∧ f = .atom left ∧ rest = next)) := by
  rw [atom.eq_def, reads_bind]
  dsimp only
  refine exists_congr fun left => exists_congr fun next => ?_
  constructor
  · rintro ⟨h, hterm, hafter⟩
    refine ⟨⟨h, hterm⟩, ?_⟩
    split at hafter
    next op start stop value start' stop' rest' =>
      obtain ⟨rfl, rfl⟩ := reads_pure.mp hafter
      exact .inl ⟨_, _, op, value, rfl, rfl, rfl, rfl⟩
    next op start stop name start' stop' more =>
      obtain ⟨right, hright, rfl⟩ := (reads_bind_pure fun right =>
        Formula.atom (left ++ " " ++ op.sign ++ " " ++ right)).mp hafter
      exact .inr (.inl ⟨_, _, op, right, rfl, rfl, hright, rfl⟩)
    next => exact (reads_throw.mp hafter).elim
    next hconst hname hcompare =>
      obtain ⟨rfl, rfl⟩ := reads_pure.mp hafter
      refine .inr (.inr ⟨fun op hnext => ?_, rfl, rfl⟩)
      obtain ⟨⟨_, start, stop⟩, more, rfl, rfl⟩ := next?_eq_some_iff.mp hnext
      exact hcompare op start stop more rfl
  · rintro ⟨⟨h, hterm⟩, hafter⟩
    refine ⟨h, hterm, ?_⟩
    rcases hafter with ⟨⟨_, _, _⟩, ⟨_, _, _⟩, op, value, rfl, rfl, rfl, rfl⟩ |
      ⟨⟨_, _, _⟩, more, op, right, rfl, rfl, hright, rfl⟩ | ⟨hend, rfl, rfl⟩
    · exact reads_pure.mpr ⟨rfl, rfl⟩
    · obtain ⟨name, hname⟩ := next?_of_reads_term hright
      obtain ⟨⟨_, _, _⟩, inside, rfl, rfl⟩ := next?_eq_some_iff.mp hname
      exact (reads_bind_pure fun right =>
        Formula.atom (left ++ " " ++ op.sign ++ " " ++ right)).mpr ⟨right, hright, rfl⟩
    · split
      · exact absurd rfl (hend _)
      · exact absurd rfl (hend _)
      · exact absurd rfl (hend _)
      · exact reads_pure.mpr ⟨rfl, rfl⟩

/-- An atom begins with a name. -/
theorem next?_of_reads_atom {f : Formula} (h : Reads (atom source opens tokens) f rest) :
    ∃ name, next? tokens = some (.name name) := by
  obtain ⟨left, next, hterm, _⟩ := reads_atom.mp h
  exact next?_of_reads_term hterm

/-! ## Formulas -/

theorem reads_chain {c : Connective} {f : Formula} :
    Reads (chain source c opens tokens) f rest ↔
      ∃ first next, Reads (operand source c opens tokens) first next ∧
        Reads (links source c opens first next) f rest := by
  rw [chain, reads_bind]
  dsimp only
  refine exists_congr fun first => exists_congr fun next => ?_
  constructor
  · rintro ⟨h, hfirst, hlinks⟩
    obtain ⟨_, hlinks, rfl⟩ := (reads_bind_pure fun f => f).mp hlinks
    exact ⟨⟨h, hfirst⟩, hlinks⟩
  · rintro ⟨⟨h, hfirst⟩, hlinks⟩
    exact ⟨h, hfirst, (reads_bind_pure fun f => f).mpr ⟨f, hlinks, rfl⟩⟩

/-- What is read at a level. -/
def atLevel (source : Source) (level : Level) (opens : List Nat) (tokens : List Lexeme) :
    Except FormulaError (Formula × Rest tokens) :=
  match level with
  | .chain c => chain source c opens tokens
  | .negation => negation source 0 opens tokens
  | .primary => primary source opens tokens

theorem operand_eq (c : Connective) :
    operand source c opens tokens = atLevel source (operandLevel c) opens tokens := by
  rw [operand.eq_def]
  cases c <;> rfl

theorem reads_links_right {c : Connective} {left whole : Formula} (hl : l.token = .connective c)
    (hc : c.groupsRight) :
    Reads (links source c opens left (l :: tokens)) whole rest ↔
      ∃ right, Reads (chain source c opens tokens) right rest ∧
        (Formula.binary c left right).height ≤ maxNesting ∧ whole = .binary c left right := by
  obtain ⟨_, start, stop⟩ := l
  cases hl
  rw [links, if_pos rfl, if_pos hc, reads_bind]
  dsimp only
  constructor
  · rintro ⟨right, next, h, hright, hafter⟩
    obtain ⟨hheight, hafter⟩ := reads_joined.mp hafter
    obtain ⟨rfl, rfl⟩ := reads_pure.mp hafter
    exact ⟨right, ⟨h, hright⟩, hheight, rfl⟩
  · rintro ⟨right, ⟨h, hright⟩, hheight, rfl⟩
    exact ⟨right, rest, h, hright, reads_joined.mpr ⟨hheight, reads_pure.mpr ⟨rfl, rfl⟩⟩⟩

theorem reads_links_left {c : Connective} {left whole : Formula} (hl : l.token = .connective c)
    (hc : ¬c.groupsRight) :
    Reads (links source c opens left (l :: tokens)) whole rest ↔
      ∃ right next, Reads (operand source c opens tokens) right next ∧
        (Formula.binary c left right).height ≤ maxNesting ∧
        Reads (links source c opens (.binary c left right) next) whole rest := by
  obtain ⟨_, start, stop⟩ := l
  cases hl
  rw [links, if_pos rfl, if_neg hc, reads_bind]
  dsimp only
  refine exists_congr fun right => exists_congr fun next => ?_
  constructor
  · rintro ⟨h, hright, hafter⟩
    obtain ⟨hheight, hafter⟩ := reads_joined.mp hafter
    obtain ⟨_, hlinks, rfl⟩ := (reads_bind_pure fun f => f).mp hafter
    exact ⟨⟨h, hright⟩, hheight, hlinks⟩
  · rintro ⟨⟨h, hright⟩, hheight, hlinks⟩
    exact ⟨h, hright, reads_joined.mpr
      ⟨hheight, (reads_bind_pure fun f => f).mpr ⟨whole, hlinks, rfl⟩⟩⟩

theorem reads_links_end {c : Connective} {left whole : Formula}
    (h : next? tokens ≠ some (.connective c)) :
    Reads (links source c opens left tokens) whole rest ↔ whole = left ∧ rest = tokens := by
  rw [links.eq_def]
  split
  next d offset stop more =>
    have hd : d ≠ c := by
      rintro rfl
      exact h rfl
    rw [if_neg hd, reads_pure]
  next => rw [reads_pure]

theorem reads_negation_not {depth : Nat} {f : Formula} (hl : l.token = .not) :
    Reads (negation source depth opens (l :: tokens)) f rest ↔
      depth < maxNesting ∧ ∃ body, Reads (negation source (depth + 1) opens tokens) body rest ∧
        (Formula.not body).height ≤ maxNesting ∧ f = .not body := by
  obtain ⟨_, offset, stop⟩ := l
  cases hl
  rw [negation]
  split
  next hdeep =>
    rw [reads_throw, false_iff]
    rintro ⟨hdepth, _⟩
    omega
  next hdeep =>
    rw [reads_bind]
    dsimp only
    constructor
    · rintro ⟨body, next, h, hbody, hafter⟩
      obtain ⟨hheight, hafter⟩ := reads_joined.mp hafter
      obtain ⟨rfl, rfl⟩ := reads_pure.mp hafter
      exact ⟨by omega, body, ⟨h, hbody⟩, hheight, rfl⟩
    · rintro ⟨_, body, ⟨h, hbody⟩, hheight, rfl⟩
      exact ⟨body, rest, h, hbody, reads_joined.mpr ⟨hheight, reads_pure.mpr ⟨rfl, rfl⟩⟩⟩

theorem negation_eq {depth : Nat} (h : next? tokens ≠ some .not) :
    negation source depth opens tokens = primary source opens tokens := by
  rw [negation]
  rintro offset stop more rfl
  exact h rfl

theorem reads_primary {f : Formula} :
    Reads (primary source opens tokens) f rest ↔
      (∃ l close more, tokens = l :: more ∧ l.token = .openParen ∧ opens.length < maxNesting ∧
        Reads (chain source .iff (l.start :: opens) more) f (close :: rest) ∧
        close.token = .closeParen) ∨
      (∃ l value, tokens = l :: rest ∧ l.token = .const value ∧ f = .const value) ∨
      Reads (atom source opens tokens) f rest := by
  rw [primary.eq_def]
  split
  next offset stop more =>
    rw [reads_opened]
    dsimp only
    rw [reads_bind]
    constructor
    · rintro ⟨hopen, whole, next, h, hwhole, hafter⟩
      dsimp only at hafter
      split at hafter
      next start' stop' rest' =>
        obtain ⟨rfl, rfl⟩ := reads_pure.mp hafter
        exact .inl ⟨_, _, more, rfl, rfl, hopen, ⟨h, hwhole⟩, rfl⟩
      next => exact (reads_throw.mp hafter).elim
    · rintro (⟨l, ⟨_, _, _⟩, more, htokens, _, hopen, ⟨h, hwhole⟩, rfl⟩ |
        ⟨l, value, htokens, hl, _⟩ | hatom)
      · cases htokens
        exact ⟨hopen, f, _, h, hwhole, reads_pure.mpr ⟨rfl, rfl⟩⟩
      · cases htokens
        cases hl
      · obtain ⟨name, hname⟩ := next?_of_reads_atom hatom
        cases hname
  next value start stop rest' =>
    rw [reads_pure]
    constructor
    · rintro ⟨rfl, rfl⟩
      exact .inr (.inl ⟨_, value, rfl, rfl, rfl⟩)
    · rintro (⟨l, close, more, htokens, hl, _⟩ | ⟨l, value, htokens, hl, rfl⟩ | hatom)
      · cases htokens
        cases hl
      · cases htokens
        cases hl
        exact ⟨rfl, rfl⟩
      · obtain ⟨name, hname⟩ := next?_of_reads_atom hatom
        cases hname
  next name start stop more =>
    refine ⟨fun hatom => .inr (.inr hatom), ?_⟩
    rintro (⟨l, close, more, htokens, hl, _⟩ | ⟨l, value, htokens, hl, rfl⟩ | hatom)
    · cases htokens
      cases hl
    · cases htokens
      cases hl
    · exact hatom
  next hopen hconst hname =>
    rw [reads_throw, false_iff]
    rintro (⟨⟨_, offset, stop⟩, close, more, rfl, rfl, _⟩ |
      ⟨⟨_, start, stop⟩, value, rfl, rfl, _⟩ | hatom)
    · exact hopen offset stop more rfl
    · exact hconst value start stop rest rfl
    · obtain ⟨name, hnext⟩ := next?_of_reads_atom hatom
      obtain ⟨⟨_, start, stop⟩, more, rfl, rfl⟩ := next?_eq_some_iff.mp hnext
      exact hname name start stop more rfl

end

end Elenchus.Reading
