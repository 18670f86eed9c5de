import Elenchus.Proofs.Formula.Reading

/-!
# What is read is what the grammar derives

The reader accepts a text exactly when its tokens derive a formula and both limits are kept, and it
answers with that formula (`Formula.parse_eq_ok_iff`).

* From the reader to the grammar (`takes_chain` and its family).  What a reading takes is derived
  at its level and keeps the limit on open parentheses; the height of the formula is checked
  wherever two formulas are joined.  The recursion is the one of the reader.
* From the grammar to the reader (`readAt_of_derives`), by induction on the derivation.  The
  operands of a connective that groups to the left are joined one after the other, so the statement
  about a chain speaks of what the chain goes on with (`ReadAt`).  A reading ends where the next
  token cannot go on with it (`Stops`).
-/

namespace Elenchus

open Grammar Reading

theorem one_le_maxNesting : 1 ≤ maxNesting := by decide

/-! ## What is read is derived -/

/-- The tokens before `rest` are within the limit, and something holds of them. -/
def Takes (opens : Nat) (tokens rest : List Lexeme) (stands : List Token → Prop) : Prop :=
  ∃ used, tokens = used ++ rest ∧ Fits opens (used.map (·.token)) ∧ stands (used.map (·.token))

section
variable {n : Nat} {tokens next rest : List Lexeme} {l close : Lexeme} {t : Token}
  {stands stands' : List Token → Prop} {follows : List Token → List Token → Prop}

theorem Takes.imp (h : Takes n tokens rest stands) (himp : ∀ ts, stands ts → stands' ts) :
    Takes n tokens rest stands' := by
  obtain ⟨used, htokens, hfits, hstands⟩ := h
  exact ⟨used, htokens, hfits, himp _ hstands⟩

theorem takes_nil (hn : n ≤ maxNesting) (h : stands []) : Takes n rest rest stands :=
  ⟨[], rfl, fits_nil.mpr hn, h⟩

/-- One more token, which is no parenthesis. -/
theorem Takes.cons (h : Takes n tokens rest stands) (hl : l.token = t)
    (ht : ∀ n, openAfter n t = n) :
    Takes n (l :: tokens) rest fun us => ∃ ts, us = t :: ts ∧ stands ts := by
  obtain ⟨used, rfl, hfits, hstands⟩ := h
  have hmap : (l :: used).map (·.token) = t :: used.map (·.token) := by rw [List.map_cons, hl]
  refine ⟨l :: used, rfl, ?_, _, hmap, hstands⟩
  rw [hmap]
  exact (fits_plain ht).mpr hfits

theorem takes_single (hn : n ≤ maxNesting) (hl : l.token = t) (ht : ∀ n, openAfter n t = n) :
    Takes n (l :: rest) rest (· = [t]) := by
  have hnil : Takes n rest rest (· = []) := takes_nil hn rfl
  refine (hnil.cons hl ht).imp ?_
  rintro _ ⟨_, rfl, rfl⟩
  rfl

/-- What is taken first may matter for what is taken next. -/
theorem Takes.append (h : Takes n tokens next stands)
    (h' : ∀ ts, stands ts → Takes n next rest (follows ts))
    (hbalanced : ∀ ts, stands ts → Balanced ts) :
    Takes n tokens rest fun us => ∃ ts vs, us = ts ++ vs ∧ stands ts ∧ follows ts vs := by
  obtain ⟨used, rfl, hfits, hstands⟩ := h
  obtain ⟨used', rfl, hfits', hfollows⟩ := h' _ hstands
  refine ⟨used ++ used', (List.append_assoc ..).symm, ?_, _, _, List.map_append, hstands, hfollows⟩
  rw [List.map_append]
  exact (hbalanced _ hstands).fits_append.mpr ⟨hfits, hfits'⟩

/-- Parentheses around what is taken. -/
theorem Takes.parens (h : Takes (n + 1) tokens (close :: rest) stands) (hn : n < maxNesting)
    (hl : l.token = .openParen) (hclose : close.token = .closeParen)
    (hbalanced : ∀ ts, stands ts → Balanced ts) :
    Takes n (l :: tokens) rest fun us =>
      ∃ ts, us = .openParen :: (ts ++ [.closeParen]) ∧ stands ts := by
  obtain ⟨used, rfl, hfits, hstands⟩ := h
  have hmap : (l :: (used ++ [close])).map (·.token) =
      .openParen :: (used.map (·.token) ++ [.closeParen]) := by
    simp only [List.map_cons, List.map_append, List.map_nil, hl, hclose]
  refine ⟨l :: (used ++ [close]), by simp, ?_, _, hmap, hstands⟩
  rw [hmap]
  exact (hbalanced _ hstands).fits_parens.mpr ⟨hn, hfits⟩

end

section
variable {source : Source}

mutual

theorem takes_term {opens : List Nat} {tokens rest : List Lexeme} {text : String}
    (h : Reads (Reading.term source opens tokens) text rest) (hopens : opens.length ≤ maxNesting) :
    Takes opens.length tokens rest (Grammar.Term · text) := by
  rcases reads_term.mp h with
    ⟨l, rfl, hl, _⟩ | ⟨l, paren, inside, name, args, htokens, hl, hparen, hopen, hargs, rfl⟩
  · refine (takes_single hopens hl fun _ => rfl).imp ?_
    rintro _ rfl
    exact .name text
  · have hlt : inside.length < tokens.length := by simp only [htokens, List.length_cons]; omega
    obtain ⟨close, hclose, hinside⟩ := takes_arguments hargs hopen
    rw [htokens]
    refine ((hinside.parens hopen hparen hclose fun _ h => h.balanced).cons hl fun _ => rfl).imp ?_
    rintro _ ⟨_, rfl, ts, rfl, hts⟩
    exact .applied name hts
termination_by (tokens.length, 0)
decreasing_by exact Prod.Lex.left _ _ hlt

/-- The parenthesis that closes them comes after the arguments. -/
theorem takes_arguments {opens : List Nat} {tokens rest : List Lexeme} {args : List String}
    (h : Reads (arguments source opens tokens) args rest) (hopens : opens.length ≤ maxNesting) :
    ∃ close, close.token = .closeParen ∧
      Takes opens.length tokens (close :: rest) (Arguments · args) := by
  by_cases hnext : next? tokens = some .closeParen
  · obtain ⟨l, more, rfl, hl⟩ := next?_eq_some_iff.mp hnext
    obtain ⟨rfl, rfl⟩ := (reads_arguments_close hl).mp h
    exact ⟨l, hl, takes_nil hopens .none⟩
  · rw [arguments_eq hnext] at h
    obtain ⟨close, hclose, hlist⟩ := takes_argumentList h hopens
    exact ⟨close, hclose, hlist.imp fun _ => .some⟩
termination_by (tokens.length, 3)

theorem takes_argumentList {opens : List Nat} {tokens rest : List Lexeme} {args : List String}
    (h : Reads (argumentList source opens tokens) args rest)
    (hopens : opens.length ≤ maxNesting) :
    ∃ close, close.token = .closeParen ∧
      Takes opens.length tokens (close :: rest) (ArgumentList · args) := by
  obtain ⟨parts, next, hparts, hne, hafter⟩ := reads_argumentList.mp h
  have hfirst := takes_pieces hparts hopens
  rcases hafter with ⟨l, more, later, rfl, hl, hlater, rfl⟩ | ⟨l, rfl, hl, rfl⟩
  · have hlt : (l :: more).length ≤ tokens.length := hparts.choose
    obtain ⟨close, hclose, hmore⟩ := takes_argumentList hlater hopens
    refine ⟨close, hclose,
      (hfirst.append (fun _ _ => hmore.cons hl fun _ => rfl) fun _ h => h.balanced).imp ?_⟩
    rintro _ ⟨ts, _, rfl, hts, us, rfl, hus⟩
    exact .more hts hne hus
  · exact ⟨l, hl, hfirst.imp fun _ hts => .last hts hne⟩
termination_by (tokens.length, 2)
decreasing_by
  · exact Prod.Lex.right _ (by decide)
  · exact Prod.Lex.left _ _ hlt

theorem takes_pieces {opens : List Nat} {tokens rest : List Lexeme} {parts : List String}
    (h : Reads (pieces source opens tokens) parts rest) (hopens : opens.length ≤ maxNesting) :
    Takes opens.length tokens rest (Pieces · parts) := by
  match hnext : next? tokens with
  | some (.name name) =>
      obtain ⟨text, next, more, hterm, hmore, rfl⟩ := (reads_pieces_name hnext).mp h
      have hlt : next.length < tokens.length := hterm.choose
      have hafter := takes_pieces hmore hopens
      refine ((takes_term hterm hopens).append (fun _ _ => hafter) fun _ h => h.balanced).imp ?_
      rintro _ ⟨ts, us, rfl, hts, hus⟩
      exact .term hts hus
  | some (.const value) =>
      obtain ⟨l, next, htokens, hl⟩ := next?_eq_some_iff.mp hnext
      have hlt : next.length < tokens.length := by rw [htokens]; simp
      rw [htokens] at h ⊢
      obtain ⟨more, hmore, rfl⟩ := (reads_pieces_const hl).mp h
      refine ((takes_pieces hmore hopens).cons hl fun _ => rfl).imp ?_
      rintro _ ⟨ts, rfl, hts⟩
      exact .const value hts
  | some (.compare op) =>
      obtain ⟨l, next, htokens, hl⟩ := next?_eq_some_iff.mp hnext
      have hlt : next.length < tokens.length := by rw [htokens]; simp
      rw [htokens] at h ⊢
      obtain ⟨more, hmore, rfl⟩ := (reads_pieces_compare hl).mp h
      refine ((takes_pieces hmore hopens).cons hl fun _ => rfl).imp ?_
      rintro _ ⟨ts, rfl, hts⟩
      exact .compare op hts
  | none | some .not | some (.connective _) | some .openParen | some .closeParen | some .comma =>
      obtain ⟨rfl, rfl⟩ := (reads_pieces_end (by simp [EndsPieces, hnext])).mp h
      exact takes_nil hopens .nil
termination_by (tokens.length, 1)
decreasing_by
  · exact Prod.Lex.left _ _ hlt
  · exact Prod.Lex.right _ (by decide)
  all_goals exact Prod.Lex.left _ _ hlt

end

theorem takes_atom {opens : List Nat} {tokens rest : List Lexeme} {f : Formula}
    (h : Reads (Reading.atom source opens tokens) f rest) (hopens : opens.length ≤ maxNesting) :
    f.height ≤ maxNesting ∧ Takes opens.length tokens rest (Derives .primary · f) := by
  obtain ⟨left, next, hleft, hafter⟩ := reads_atom.mp h
  have hfirst := takes_term hleft hopens
  rcases hafter with ⟨l, r, op, value, rfl, hl, hr, rfl⟩ |
    ⟨l, more, op, right, rfl, hl, hright, rfl⟩ | ⟨_, rfl, rfl⟩
  · have hvalue : Takes opens.length (r :: rest) rest _ := takes_single hopens hr fun _ => rfl
    have hvalue := hvalue.cons hl fun _ => rfl
    refine ⟨one_le_maxNesting, (hfirst.append (fun _ _ => hvalue) fun _ h => h.balanced).imp ?_⟩
    rintro _ ⟨ts, _, rfl, hts, _, rfl, rfl⟩
    exact .atom (.comparison op hts (.const value))
  · have hterm := (takes_term hright hopens).cons hl fun _ => rfl
    refine ⟨one_le_maxNesting, (hfirst.append (fun _ _ => hterm) fun _ h => h.balanced).imp ?_⟩
    rintro _ ⟨ts, _, rfl, hts, us, rfl, hus⟩
    exact .atom (.comparison op hts (.term hus))
  · exact ⟨one_le_maxNesting, hfirst.imp fun _ hts => .atom (.term hts)⟩

mutual

theorem takes_chain {c : Connective} {opens : List Nat} {tokens rest : List Lexeme} {f : Formula}
    (h : Reads (chain source c opens tokens) f rest) (hopens : opens.length ≤ maxNesting) :
    f.height ≤ maxNesting ∧ Takes opens.length tokens rest (Derives (.chain c) · f) := by
  obtain ⟨first, next, hfirst, hlinks⟩ := reads_chain.mp h
  have hlt : next.length < tokens.length := hfirst.choose
  obtain ⟨hheight, hfirst⟩ := takes_operand hfirst hopens
  obtain ⟨hheight, hlinks⟩ := takes_links hlinks hopens hheight
  refine ⟨hheight, (hfirst.append (fun ts hts => hlinks ts hts.left) fun _ h => h.balanced).imp ?_⟩
  rintro _ ⟨ts, us, rfl, _, hwhole⟩
  exact hwhole
termination_by (tokens.length, 2 * (5 - c.strength) + 1)
decreasing_by
  · exact Prod.Lex.right _ (Nat.lt_succ_self _)
  · exact Prod.Lex.left _ _ hlt

theorem takes_operand {c : Connective} {opens : List Nat} {tokens rest : List Lexeme}
    {f : Formula} (h : Reads (operand source c opens tokens) f rest)
    (hopens : opens.length ≤ maxNesting) :
    f.height ≤ maxNesting ∧ Takes opens.length tokens rest (Derives (operandLevel c) · f) := by
  match c with
  | .iff =>
      rw [operand] at h
      exact takes_chain h hopens
  | .implies =>
      rw [operand] at h
      exact takes_chain h hopens
  | .or =>
      rw [operand] at h
      exact takes_chain h hopens
  | .and =>
      rw [operand] at h
      exact takes_negation h hopens
termination_by (tokens.length, 2 * (5 - c.strength))
decreasing_by all_goals exact Prod.Lex.right _ (by decide)

/-- What is joined to formulas that are read already goes on from their tokens. -/
theorem takes_links {c : Connective} {opens : List Nat} {left whole : Formula}
    {tokens rest : List Lexeme} (h : Reads (links source c opens left tokens) whole rest)
    (hopens : opens.length ≤ maxNesting) (hleft : left.height ≤ maxNesting) :
    whole.height ≤ maxNesting ∧ ∀ ts, Derives (leftLevel c) ts left →
      Takes opens.length tokens rest fun us => Derives (.chain c) (ts ++ us) whole := by
  by_cases hnext : next? tokens = some (.connective c)
  · obtain ⟨l, more, htokens, hl⟩ := next?_eq_some_iff.mp hnext
    have hlt : more.length < tokens.length := by rw [htokens]; simp
    rw [htokens] at h ⊢
    by_cases hc : c.groupsRight
    · obtain ⟨right, hright, hheight, rfl⟩ := (reads_links_right hl hc).mp h
      refine ⟨hheight, fun ts hts => ((takes_chain hright hopens).2.cons hl fun _ => rfl).imp ?_⟩
      rintro _ ⟨us, rfl, hus⟩
      rw [← rightLevel_of_groupsRight hc] at hus
      exact .binary c hts hus
    · obtain ⟨right, next, hright, hheight, hlinks⟩ := (reads_links_left hl hc).mp h
      have hlt' : next.length < tokens.length := Nat.lt_trans hright.choose hlt
      obtain ⟨hwhole, hafter⟩ := takes_links hlinks hopens hheight
      refine ⟨hwhole, fun ts hts => ?_⟩
      have hjoined : ∀ us, Derives (operandLevel c) us right →
          Derives (leftLevel c) (ts ++ .connective c :: us) (.binary c left right) := by
        intro us hus
        rw [← rightLevel_of_not_groupsRight hc] at hus
        rw [leftLevel_of_not_groupsRight hc]
        exact .binary c hts hus
      refine (((takes_operand hright hopens).2.append (fun us hus => hafter _ (hjoined us hus))
        fun _ h => h.balanced).cons hl fun _ => rfl).imp ?_
      rintro _ ⟨_, rfl, us, vs, rfl, _, hvs⟩
      rw [List.append_assoc] at hvs
      exact hvs
  · obtain ⟨rfl, rfl⟩ := (reads_links_end hnext).mp h
    refine ⟨hleft, fun ts hts => takes_nil hopens ?_⟩
    rw [List.append_nil]
    exact hts.chain
termination_by (tokens.length, 0)
decreasing_by
  · exact Prod.Lex.left _ _ hlt
  · exact Prod.Lex.left _ _ hlt'
  · exact Prod.Lex.left _ _ hlt

theorem takes_negation {depth : Nat} {opens : List Nat} {tokens rest : List Lexeme} {f : Formula}
    (h : Reads (negation source depth opens tokens) f rest) (hopens : opens.length ≤ maxNesting) :
    f.height ≤ maxNesting ∧ Takes opens.length tokens rest (Derives .negation · f) := by
  by_cases hnext : next? tokens = some .not
  · obtain ⟨l, more, htokens, hl⟩ := next?_eq_some_iff.mp hnext
    have hlt : more.length < tokens.length := by rw [htokens]; simp
    rw [htokens] at h ⊢
    obtain ⟨_, body, hbody, hheight, rfl⟩ := (reads_negation_not hl).mp h
    refine ⟨hheight, ((takes_negation hbody hopens).2.cons hl fun _ => rfl).imp ?_⟩
    rintro _ ⟨ts, rfl, hts⟩
    exact .not hts
  · rw [negation_eq hnext] at h
    obtain ⟨hheight, htakes⟩ := takes_primary h hopens
    exact ⟨hheight, htakes.imp fun _ => .primary⟩
termination_by (tokens.length, 1)
decreasing_by
  · exact Prod.Lex.left _ _ hlt
  · exact Prod.Lex.right _ (by decide)

theorem takes_primary {opens : List Nat} {tokens rest : List Lexeme} {f : Formula}
    (h : Reads (primary source opens tokens) f rest) (hopens : opens.length ≤ maxNesting) :
    f.height ≤ maxNesting ∧ Takes opens.length tokens rest (Derives .primary · f) := by
  rcases reads_primary.mp h with
    ⟨l, close, more, htokens, hl, hopen, hinside, hclose⟩ | ⟨l, value, rfl, hl, rfl⟩ | hatom
  · have hlt : more.length < tokens.length := by rw [htokens]; simp
    obtain ⟨hheight, hinside⟩ := takes_chain hinside hopen
    rw [htokens]
    refine ⟨hheight, (hinside.parens hopen hl hclose fun _ h => h.balanced).imp ?_⟩
    rintro _ ⟨ts, rfl, hts⟩
    exact .parens hts
  · refine ⟨one_le_maxNesting, (takes_single hopens hl fun _ => rfl).imp ?_⟩
    rintro _ rfl
    exact .const value
  · exact takes_atom hatom hopens
termination_by (tokens.length, 0)
decreasing_by exact Prod.Lex.left _ _ hlt

end

/-! ## What is derived is read -/

theorem map_eq_parens {used : List Lexeme} {ts : List Token}
    (h : used.map (·.token) = .openParen :: (ts ++ [.closeParen])) :
    ∃ l inside close, used = l :: (inside ++ [close]) ∧ l.token = .openParen ∧
      inside.map (·.token) = ts ∧ close.token = .closeParen := by
  obtain ⟨l, after, rfl, hl, hafter⟩ := List.map_eq_cons_iff.mp h
  obtain ⟨inside, last, rfl, hinside, hlast⟩ := List.map_eq_append_iff.mp hafter
  obtain ⟨close, rfl, hclose⟩ := List.map_eq_singleton_iff.mp hlast
  exact ⟨l, inside, close, rfl, hl, hinside, hclose⟩

theorem next?_append {used rest : List Lexeme} {t : Token} {ts : List Token}
    (h : used.map (·.token) = t :: ts) : next? (used ++ rest) = some t := by
  obtain ⟨l, after, rfl, rfl, _⟩ := List.map_eq_cons_iff.mp h
  rfl

/-- What comes after an argument. -/
def EndsArgument (rest : List Lexeme) : Prop :=
  next? rest = some .comma ∨ next? rest = some .closeParen

theorem EndsArgument.endsPieces {rest : List Lexeme} (h : EndsArgument rest) :
    EndsPieces rest := by
  rcases h with h | h <;> simp [EndsPieces, h]

/-- The parts of an argument that go on after a term do not apply it. -/
theorem next?_pieces {used rest : List Lexeme} {parts : List String}
    (h : Pieces (used.map (·.token)) parts) (hrest : EndsArgument rest) :
    next? (used ++ rest) ≠ some .openParen := by
  by_cases hparts : parts = []
  · subst hparts
    rw [List.map_eq_nil_iff.mp h.eq_nil, List.nil_append]
    rcases hrest with h | h <;> simp [h]
  · obtain ⟨t, us, heq, ht, _⟩ := h.head hparts
    rw [next?_append heq]
    simpa using ht

mutual

theorem reads_of_term {ts : List Token} {text : String} (h : Grammar.Term ts text)
    {opens : List Nat} {used rest : List Lexeme} (hused : used.map (·.token) = ts)
    (hfits : Fits opens.length ts) (hrest : next? rest ≠ some .openParen) :
    Reads (Reading.term source opens (used ++ rest)) text rest := by
  match h with
  | .name name =>
      obtain ⟨l, rfl, hl⟩ := List.map_eq_singleton_iff.mp hused
      exact reads_term.mpr (.inl ⟨l, rfl, hl, hrest⟩)
  | .applied name h =>
      obtain ⟨l, after, rfl, hl, hafter⟩ := List.map_eq_cons_iff.mp hused
      obtain ⟨paren, inside, close, rfl, hparen, hinside, hclose⟩ := map_eq_parens hafter
      obtain ⟨hopen, hfits⟩ := h.balanced.fits_parens.mp ((fits_plain fun _ => rfl).mp hfits)
      refine reads_term.mpr (.inr ⟨l, paren, inside ++ close :: rest, name, _, by simp, hl, hparen,
        hopen, ?_, rfl⟩)
      exact reads_of_arguments h hinside hfits hclose

theorem reads_of_arguments {ts : List Token} {args : List String} (h : Arguments ts args)
    {opens : List Nat} {used rest : List Lexeme} {close : Lexeme}
    (hused : used.map (·.token) = ts) (hfits : Fits opens.length ts)
    (hclose : close.token = .closeParen) :
    Reads (arguments source opens (used ++ close :: rest)) args rest := by
  match h with
  | .none =>
      rw [List.map_eq_nil_iff.mp hused]
      exact (reads_arguments_close hclose).mpr ⟨rfl, rfl⟩
  | .some h =>
      obtain ⟨t, us, heq, ht⟩ := h.head
      rw [arguments_eq (by rw [next?_append (hused.trans heq)]; simpa using ht)]
      exact reads_of_argumentList h hused hfits hclose

theorem reads_of_argumentList {ts : List Token} {args : List String} (h : ArgumentList ts args)
    {opens : List Nat} {used rest : List Lexeme} {close : Lexeme}
    (hused : used.map (·.token) = ts) (hfits : Fits opens.length ts)
    (hclose : close.token = .closeParen) :
    Reads (argumentList source opens (used ++ close :: rest)) args rest := by
  match h with
  | .last h hparts =>
      refine reads_argumentList.mpr ⟨_, close :: rest, ?_, hparts, .inr ⟨close, rfl, hclose, rfl⟩⟩
      exact reads_of_pieces h hused hfits (.inr (congrArg some hclose))
  | .more h hparts hlist =>
      obtain ⟨first, after, rfl, hfirst, hafter⟩ := List.map_eq_append_iff.mp hused
      obtain ⟨comma, more, rfl, hcomma, hmore⟩ := List.map_eq_cons_iff.mp hafter
      obtain ⟨hfits, hfits'⟩ := h.balanced.fits_append.mp hfits
      refine reads_argumentList.mpr ⟨_, comma :: (more ++ close :: rest), ?_, hparts, .inl
        ⟨comma, more ++ close :: rest, _, rfl, hcomma, ?_, rfl⟩⟩
      · rw [List.append_assoc]
        exact reads_of_pieces h hfirst hfits (.inl (congrArg some hcomma))
      · exact reads_of_argumentList hlist hmore ((fits_plain fun _ => rfl).mp hfits') hclose

theorem reads_of_pieces {ts : List Token} {parts : List String} (h : Pieces ts parts)
    {opens : List Nat} {used rest : List Lexeme} (hused : used.map (·.token) = ts)
    (hfits : Fits opens.length ts) (hrest : EndsArgument rest) :
    Reads (pieces source opens (used ++ rest)) parts rest := by
  match h with
  | .nil =>
      rw [List.map_eq_nil_iff.mp hused]
      exact (reads_pieces_end hrest.endsPieces).mpr ⟨rfl, rfl⟩
  | .term h h' =>
      obtain ⟨first, after, rfl, hfirst, hafter⟩ := List.map_eq_append_iff.mp hused
      obtain ⟨hfits, hfits'⟩ := h.balanced.fits_append.mp hfits
      obtain ⟨name, us, heq⟩ := h.head
      have hnext : next? (after ++ rest) ≠ some .openParen := next?_pieces (hafter ▸ h') hrest
      rw [List.append_assoc]
      refine (reads_pieces_name (next?_append (hfirst.trans heq))).mpr
        ⟨_, after ++ rest, _, ?_, ?_, rfl⟩
      · exact reads_of_term h hfirst hfits hnext
      · exact reads_of_pieces h' hafter hfits' hrest
  | .const value h =>
      obtain ⟨l, after, rfl, hl, hafter⟩ := List.map_eq_cons_iff.mp hused
      have hfits := (fits_plain fun _ => rfl).mp hfits
      exact (reads_pieces_const hl).mpr ⟨_, reads_of_pieces h hafter hfits hrest, rfl⟩
  | .compare op h =>
      obtain ⟨l, after, rfl, hl, hafter⟩ := List.map_eq_cons_iff.mp hused
      have hfits := (fits_plain fun _ => rfl).mp hfits
      exact (reads_pieces_compare hl).mpr ⟨_, reads_of_pieces h hafter hfits hrest, rfl⟩

end

/-- What comes after a formula at a level: nothing, a closing parenthesis, or a connective that
binds less tightly. -/
def Stops (level : Level) (rest : List Lexeme) : Prop :=
  ∀ t, next? rest = some t →
    t = .closeParen ∨ ∃ d, t = .connective d ∧ d.strength < level.strength

section
variable {level : Level} {rest : List Lexeme}

theorem stops_nil : Stops level [] := by
  intro t hnext
  cases hnext

theorem stops_close {l : Lexeme} (hl : l.token = .closeParen) : Stops level (l :: rest) := by
  intro t hnext
  cases hnext
  exact .inl hl

theorem stops_connective {c : Connective} {l : Lexeme} (hl : l.token = .connective c)
    (hc : c.strength < level.strength) : Stops level (l :: rest) := by
  intro t hnext
  cases hnext
  exact .inr ⟨c, hl, hc⟩

theorem Stops.mono {level' : Level} (h : Stops level rest)
    (hle : level.strength ≤ level'.strength) : Stops level' rest := by
  intro t hnext
  rcases h t hnext with ht | ⟨d, ht, hd⟩
  · exact .inl ht
  · exact .inr ⟨d, ht, Nat.lt_of_lt_of_le hd hle⟩

theorem Stops.ne {t : Token} (h : Stops level rest) (hclose : t ≠ .closeParen)
    (hconnective : ∀ d, t ≠ .connective d) : next? rest ≠ some t := by
  intro hnext
  rcases h t hnext with ht | ⟨d, ht, _⟩
  · exact hclose ht
  · exact hconnective d ht

theorem Stops.ne_connective {c : Connective} (h : Stops (.chain c) rest) :
    next? rest ≠ some (.connective c) := by
  intro hnext
  rcases h _ hnext with ht | ⟨d, ht, hd⟩
  · cases ht
  · cases ht
    exact Nat.lt_irrefl _ hd

end

theorem reads_of_atom {ts : List Token} {text : String} (h : Grammar.Atom ts text)
    {opens : List Nat} {used rest : List Lexeme} (hused : used.map (·.token) = ts)
    (hfits : Fits opens.length ts) (hrest : Stops .primary rest) :
    Reads (Reading.atom source opens (used ++ rest)) (.atom text) rest := by
  have hopen : next? rest ≠ some .openParen := hrest.ne (by simp) (by simp)
  cases h with
  | term h =>
      have hend : ∀ op, next? rest ≠ some (.compare op) := fun op =>
        hrest.ne (by simp) (by simp)
      exact reads_atom.mpr ⟨text, rest, reads_of_term h hused hfits hopen,
        .inr (.inr ⟨hend, rfl, rfl⟩)⟩
  | comparison op h h' =>
      obtain ⟨first, after, rfl, hfirst, hafter⟩ := List.map_eq_append_iff.mp hused
      obtain ⟨l, second, rfl, hl, hsecond⟩ := List.map_eq_cons_iff.mp hafter
      obtain ⟨hfits, hfits'⟩ := h.balanced.fits_append.mp hfits
      have hfits' := (fits_plain fun _ => rfl).mp hfits'
      rw [List.append_assoc, List.cons_append]
      have hnext : next? (l :: (second ++ rest)) ≠ some .openParen := by simp [next?, hl]
      have hleft : Reads (Reading.term source opens _) _ (l :: (second ++ rest)) :=
        reads_of_term h hfirst hfits hnext
      cases h' with
      | term h' =>
          have hright : Reads (Reading.term source opens (second ++ rest)) _ rest :=
            reads_of_term h' hsecond hfits' hopen
          exact reads_atom.mpr ⟨_, _, hleft, .inr (.inl ⟨l, _, op, _, rfl, hl, hright, rfl⟩)⟩
      | const value =>
          obtain ⟨r, rfl, hr⟩ := List.map_eq_singleton_iff.mp hsecond
          exact reads_atom.mpr ⟨_, _, hleft, .inl ⟨l, r, op, value, rfl, hl, hr, rfl⟩⟩

variable (source) in
/-- Wherever the tokens stand within the limit, the formula is read from them.  What a chain goes
on with is joined to it: as the operands of a connective that groups to the left are read one after
the other, the formula read so far is all that the derivation of a shorter chain can speak of. -/
def ReadAt : Level → List Token → Formula → Prop
  | .chain c, ts, f => ∀ opens used rest whole left, used.map (·.token) = ts →
      Fits opens.length ts → Stops (rightLevel c) rest →
      Reads (links source c opens f rest) whole left →
      Reads (chain source c opens (used ++ rest)) whole left
  | .negation, ts, f => ∀ depth opens used rest, used.map (·.token) = ts →
      Fits opens.length ts → Stops .negation rest → depth + f.height ≤ maxNesting →
      Reads (negation source depth opens (used ++ rest)) f rest
  | .primary, ts, f => ∀ opens used rest, used.map (·.token) = ts →
      Fits opens.length ts → Stops .primary rest →
      Reads (primary source opens (used ++ rest)) f rest

theorem ReadAt.reads {level : Level} {ts : List Token} {f : Formula} (h : ReadAt source level ts f)
    (hheight : f.height ≤ maxNesting) {opens : List Nat} {used rest : List Lexeme}
    (hused : used.map (·.token) = ts) (hfits : Fits opens.length ts) (hrest : Stops level rest) :
    Reads (atLevel source level opens (used ++ rest)) f rest := by
  cases level with
  | chain c =>
      have hend : Reads (links source c opens f rest) f rest :=
        (reads_links_end hrest.ne_connective).mpr ⟨rfl, rfl⟩
      exact h opens used rest f rest hused hfits (hrest.mono (le_strength_rightLevel c)) hend
  | negation => exact h 0 opens used rest hused hfits hrest (by omega)
  | primary => exact h opens used rest hused hfits hrest

theorem readAt_of_derives {level : Level} {ts : List Token} {f : Formula}
    (h : Derives level ts f) (hheight : f.height ≤ maxNesting) : ReadAt source level ts f := by
  induction h with
  | atom h =>
      intro opens used rest hused hfits hrest
      exact reads_primary.mpr (.inr (.inr (reads_of_atom h hused hfits hrest)))
  | const value =>
      intro opens used rest hused hfits hrest
      obtain ⟨l, rfl, hl⟩ := List.map_eq_singleton_iff.mp hused
      exact reads_primary.mpr (.inr (.inl ⟨l, value, rfl, hl, rfl⟩))
  | parens h ih =>
      intro opens used rest hused hfits hrest
      obtain ⟨l, inside, close, rfl, hl, hinside, hclose⟩ := map_eq_parens hused
      obtain ⟨hopen, hfits⟩ := h.balanced.fits_parens.mp hfits
      have hchain : Reads (chain source .iff (l.start :: opens) (inside ++ close :: rest)) _ _ :=
        (ih hheight).reads hheight hinside hfits (stops_close hclose)
      exact reads_primary.mpr (.inl ⟨l, close, _, by simp, hl, hopen, hchain, hclose⟩)
  | primary h ih =>
      intro depth opens used rest hused hfits hrest hdepth
      obtain ⟨t, us, heq, ht⟩ := h.head_primary
      rw [negation_eq (by rw [next?_append (hused.trans heq)]; simpa using ht)]
      exact ih hheight opens used rest hused hfits (hrest.mono (by decide))
  | not h ih =>
      intro depth opens used rest hused hfits hrest hdepth
      simp only [Formula.height] at hdepth hheight
      obtain ⟨l, after, rfl, hl, hafter⟩ := List.map_eq_cons_iff.mp hused
      have hfits := (fits_plain fun _ => rfl).mp hfits
      refine (reads_negation_not hl).mpr ⟨by omega, _, ?_, hheight, rfl⟩
      exact ih (by omega) (depth + 1) opens after rest hafter hfits hrest (by omega)
  | operand c h ih =>
      intro opens used rest whole left hused hfits hrest hlinks
      have hstops : Stops (operandLevel c) rest := by
        refine hrest.mono ?_
        rw [strength_operandLevel]
        exact strength_rightLevel_le c
      refine reads_chain.mpr ⟨_, rest, ?_, hlinks⟩
      rw [operand_eq]
      exact (ih hheight).reads hheight hused hfits hstops
  | binary c h h' ih ih' =>
      rename_i ts us f g
      intro opens used rest whole left hused hfits hrest hlinks
      obtain ⟨first, after, rfl, hfirst, hafter⟩ := List.map_eq_append_iff.mp hused
      obtain ⟨l, second, rfl, hl, hsecond⟩ := List.map_eq_cons_iff.mp hafter
      obtain ⟨hfits, hfits'⟩ := h.balanced.fits_append.mp hfits
      have hfits' := (fits_plain fun _ => rfl).mp hfits'
      have hheights : f.height ≤ maxNesting ∧ g.height ≤ maxNesting := by
        simp only [Formula.height] at hheight
        omega
      have hleft := ih hheights.1
      have hright : Reads (atLevel source (rightLevel c) opens (second ++ rest)) g rest :=
        (ih' hheights.2).reads hheights.2 hsecond hfits' hrest
      rw [List.append_assoc, List.cons_append]
      have hstops : Stops (operandLevel c) (l :: (second ++ rest)) :=
        stops_connective hl (by rw [strength_operandLevel]; omega)
      by_cases hc : c.groupsRight
      · rw [leftLevel_of_groupsRight hc] at hleft
        rw [rightLevel_of_groupsRight hc] at hright hrest
        obtain ⟨rfl, rfl⟩ := (reads_links_end hrest.ne_connective).mp hlinks
        refine reads_chain.mpr ⟨f, _, ?_, (reads_links_right hl hc).mpr ⟨g, hright, hheight, rfl⟩⟩
        rw [operand_eq]
        exact hleft.reads hheights.1 hfirst hfits hstops
      · rw [leftLevel_of_not_groupsRight hc] at hleft
        rw [rightLevel_of_not_groupsRight hc, ← operand_eq] at hright
        rw [← rightLevel_of_not_groupsRight hc] at hstops
        exact hleft opens first _ whole left hfirst hfits hstops
          ((reads_links_left hl hc).mpr ⟨g, rest, hright, hheight, hlinks⟩)

end

/-! ## Whole texts -/

namespace Formula

variable {source : Source} {tokens : List Lexeme} {f : Formula}

theorem ofTokens_eq_ok_iff_reads :
    ofTokens source tokens = .ok f ↔ Reads (chain source .iff [] tokens) f [] := by
  cases tokens with
  | nil =>
      constructor
      · intro h
        cases h
      · rintro ⟨h, _⟩
        exact absurd h (Nat.not_lt_zero _)
  | cons l tokens =>
      rw [ofTokens]
      · cases hchain : chain source .iff [] (l :: tokens) with
        | error error => simp [Reads, bind, Except.bind]
        | ok answer =>
            obtain ⟨g, rest, hrest⟩ := answer
            cases rest with
            | nil => simp [Reads, bind, Except.bind, pure, Except.pure]
            | cons next rest =>
                simp only [bind, Except.bind, Reads]
                split <;> simp [throw, throwThe, MonadExceptOf.throw]
      · exact List.cons_ne_nil l tokens

/-- All of the tokens are taken, which is why nothing may be left open. -/
theorem ofTokens_eq_ok_iff :
    ofTokens source tokens = .ok f ↔
      Derives (.chain .iff) (tokens.map (·.token)) f ∧ f.height ≤ maxNesting ∧
        Fits 0 (tokens.map (·.token)) := by
  rw [ofTokens_eq_ok_iff_reads]
  constructor
  · intro h
    obtain ⟨hheight, used, htokens, hfits, hderives⟩ := takes_chain h (Nat.zero_le _)
    rw [List.append_nil] at htokens
    subst htokens
    exact ⟨hderives, hheight, hfits⟩
  · rintro ⟨hderives, hheight, hfits⟩
    have hreads : Reads (chain source .iff [] (tokens ++ [])) f [] :=
      (readAt_of_derives hderives hheight).reads hheight rfl hfits stops_nil
    rw [List.append_nil] at hreads
    exact hreads

theorem parse_eq_ok_iff_ofTokens {text : String} :
    parse text = .ok f ↔
      ∃ read, tokenize text.toList = .ok read ∧
        ofTokens ⟨text.toList, read.stop⟩ read.lexemes = .ok f := by
  unfold parse
  cases hread : tokenize text.toList with
  | error error => simp [bind, Except.bind]
  | ok read => simp [bind, Except.bind]

/-- The reader accepts its grammar within its limits, and nothing else. -/
theorem parse_eq_ok_iff (text : String) (f : Formula) :
    parse text = .ok f ↔
      ∃ read, tokenize text.toList = .ok read ∧
        Derives (.chain .iff) (read.lexemes.map (·.token)) f ∧ f.height ≤ maxNesting ∧
        ∀ before, before <+: read.lexemes.map (·.token) → unclosed before ≤ maxNesting := by
  simp only [parse_eq_ok_iff_ofTokens, ofTokens_eq_ok_iff]
  exact Iff.rfl

end Formula

end Elenchus
