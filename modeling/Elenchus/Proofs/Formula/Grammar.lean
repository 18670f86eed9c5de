import Elenchus.Formula.Parser

/-!
# The grammar of formulas

Which token lists stand for a formula, said without the parser.

    iff         ::=  iff  ↔  implies       |  implies
    implies     ::=  or  →  implies        |  or
    or          ::=  or  ∨  and            |  and
    and         ::=  and  ∧  negation      |  negation
    negation    ::=  ¬ negation            |  primary
    primary     ::=  ( iff )  |  constant  |  term  |  term comparison (term | constant)
    term        ::=  name  |  name ( )  |  name ( argument , … , argument )
    argument    ::=  one or more terms, constants and comparison operators

The first four rules are one, with a connective as its parameter (`Grammar.Derives.binary`): a
connective that groups to the left has a chain of the same connective on its left and the next
tighter level on its right, and one that groups to the right the other way round.

A term is kept as text, so `Grammar.Term` relates a token list to the text of the term.  The limit
on open parentheses is no matter of the grammar: `Grammar.Fits` says that at no point of a token
list more than `maxNesting` are open.  What the grammar derives closes all that it opens, which is
what makes the limit a matter of each part by itself.
-/

namespace Elenchus.Grammar

/-! ## Terms -/

mutual

inductive Term : List Token → String → Prop
  | name (name : String) : Term [.name name] name
  | applied (name : String) {ts : List Token} {args : List String} : Arguments ts args →
      Term (.name name :: .openParen :: (ts ++ [.closeParen]))
        (name ++ "(" ++ ", ".intercalate args ++ ")")

/-- What stands between the parentheses of a term. -/
inductive Arguments : List Token → List String → Prop
  | none : Arguments [] []
  | some {ts : List Token} {args : List String} : ArgumentList ts args → Arguments ts args

inductive ArgumentList : List Token → List String → Prop
  | last {ts : List Token} {parts : List String} : Pieces ts parts → parts ≠ [] →
      ArgumentList ts [" ".intercalate parts]
  | more {ts us : List Token} {parts args : List String} : Pieces ts parts → parts ≠ [] →
      ArgumentList us args → ArgumentList (ts ++ .comma :: us) (" ".intercalate parts :: args)

/-- What one argument is made of. -/
inductive Pieces : List Token → List String → Prop
  | nil : Pieces [] []
  | term {ts us : List Token} {text : String} {parts : List String} : Term ts text →
      Pieces us parts → Pieces (ts ++ us) (text :: parts)
  | const (value : Bool) {ts : List Token} {parts : List String} : Pieces ts parts →
      Pieces (.const value :: ts) (constantWord value :: parts)
  | compare (op : Comparison) {ts : List Token} {parts : List String} : Pieces ts parts →
      Pieces (.compare op :: ts) (op.sign :: parts)

end

/-- What may stand to the right of a comparison operator. -/
inductive Operand : List Token → String → Prop
  | term {ts : List Token} {text : String} : Term ts text → Operand ts text
  | const (value : Bool) : Operand [.const value] (constantWord value)

/-- An atom with its text. -/
inductive Atom : List Token → String → Prop
  | term {ts : List Token} {text : String} : Term ts text → Atom ts text
  | comparison (op : Comparison) {ts us : List Token} {left right : String} : Term ts left →
      Operand us right → Atom (ts ++ .compare op :: us) (left ++ " " ++ op.sign ++ " " ++ right)

/-! ## Formulas -/

/-- The places of a formula, from the loosest to the tightest. -/
inductive Level where
  /-- Operands joined by a connective, or a single one. -/
  | chain (c : Connective)
  | negation
  | primary
deriving DecidableEq

/-- How tightly what stands at a level holds together. -/
def Level.strength : Level → Nat
  | .chain c => c.strength
  | .negation => 5
  | .primary => 6

/-- The level of the operands of a connective. -/
def operandLevel : Connective → Level
  | .iff => .chain .implies
  | .implies => .chain .or
  | .or => .chain .and
  | .and => .negation

def leftLevel (c : Connective) : Level := if c.groupsRight then operandLevel c else .chain c

def rightLevel (c : Connective) : Level := if c.groupsRight then .chain c else operandLevel c

/-- The formulas that a token list stands for at a level. -/
inductive Derives : Level → List Token → Formula → Prop
  | atom {ts : List Token} {text : String} : Atom ts text → Derives .primary ts (.atom text)
  | const (value : Bool) : Derives .primary [.const value] (.const value)
  | parens {ts : List Token} {f : Formula} : Derives (.chain .iff) ts f →
      Derives .primary (.openParen :: (ts ++ [.closeParen])) f
  | primary {ts : List Token} {f : Formula} : Derives .primary ts f → Derives .negation ts f
  | not {ts : List Token} {f : Formula} : Derives .negation ts f →
      Derives .negation (.not :: ts) (.not f)
  | operand (c : Connective) {ts : List Token} {f : Formula} : Derives (operandLevel c) ts f →
      Derives (.chain c) ts f
  | binary (c : Connective) {ts us : List Token} {f g : Formula} : Derives (leftLevel c) ts f →
      Derives (rightLevel c) us g →
      Derives (.chain c) (ts ++ .connective c :: us) (.binary c f g)

section
variable {c : Connective} {ts : List Token} {f : Formula}

theorem strength_operandLevel (c : Connective) :
    (operandLevel c).strength = c.strength + 1 := by
  cases c <;> rfl

theorem le_strength_rightLevel (c : Connective) : c.strength ≤ (rightLevel c).strength := by
  cases c <;> decide

theorem strength_rightLevel_le (c : Connective) : (rightLevel c).strength ≤ c.strength + 1 := by
  cases c <;> decide

theorem leftLevel_of_groupsRight (h : c.groupsRight) : leftLevel c = operandLevel c := if_pos h

theorem leftLevel_of_not_groupsRight (h : ¬c.groupsRight) : leftLevel c = .chain c := if_neg h

theorem rightLevel_of_groupsRight (h : c.groupsRight) : rightLevel c = .chain c := if_pos h

theorem rightLevel_of_not_groupsRight (h : ¬c.groupsRight) : rightLevel c = operandLevel c :=
  if_neg h

/-- An operand by itself may stand to the left of a connective. -/
theorem Derives.left (h : Derives (operandLevel c) ts f) : Derives (leftLevel c) ts f := by
  unfold leftLevel
  split
  · exact h
  · exact .operand c h

/-- What may stand to the left of a connective may stand without it. -/
theorem Derives.chain (h : Derives (leftLevel c) ts f) : Derives (.chain c) ts f := by
  unfold leftLevel at h
  split at h
  · exact .operand c h
  · exact h

end

/-! ## Open parentheses -/

/-- How many parentheses are open after one more token, if `n` are open before it. -/
def openAfter (n : Nat) : Token → Nat
  | .openParen => n + 1
  | .closeParen => n - 1
  | _ => n

/-- How many parentheses are open after some tokens. -/
def unclosed (ts : List Token) : Nat := ts.foldl openAfter 0

/-- Going through some tokens with `n` open parentheses, no more than the limit are ever open. -/
def Fits (n : Nat) (ts : List Token) : Prop :=
  ∀ before, before <+: ts → before.foldl openAfter n ≤ maxNesting

theorem fits_nil {n : Nat} : Fits n [] ↔ n ≤ maxNesting := by
  constructor
  · intro h
    exact h [] (List.prefix_refl [])
  · intro h before hbefore
    rw [List.prefix_nil.mp hbefore]
    exact h

theorem fits_cons {n : Nat} {t : Token} {ts : List Token} :
    Fits n (t :: ts) ↔ n ≤ maxNesting ∧ Fits (openAfter n t) ts := by
  constructor
  · intro h
    refine ⟨h [] (List.nil_prefix), fun before hbefore => ?_⟩
    exact h (t :: before) (List.cons_prefix_cons.mpr ⟨rfl, hbefore⟩)
  · rintro ⟨hn, h⟩ before hbefore
    cases before with
    | nil => exact hn
    | cons b before =>
        obtain ⟨rfl, htail⟩ := List.cons_prefix_cons.mp hbefore
        exact h before htail

theorem Fits.le {n : Nat} {ts : List Token} (h : Fits n ts) : n ≤ maxNesting :=
  h [] List.nil_prefix

theorem fits_append {n : Nat} {ts us : List Token} :
    Fits n (ts ++ us) ↔ Fits n ts ∧ Fits (ts.foldl openAfter n) us := by
  induction ts generalizing n with
  | nil => simp only [List.nil_append, List.foldl_nil, fits_nil, iff_and_self]; exact Fits.le
  | cons t ts ih => simp only [List.cons_append, List.foldl_cons, fits_cons, ih, and_assoc]

theorem openAfter_mono {m n : Nat} (h : m ≤ n) (t : Token) : openAfter m t ≤ openAfter n t := by
  cases t <;> simp only [openAfter] <;> omega

theorem Fits.mono {m n : Nat} {ts : List Token} (h : Fits n ts) (hle : m ≤ n) : Fits m ts := by
  induction ts generalizing m n with
  | nil => exact fits_nil.mpr (Nat.le_trans hle h.le)
  | cons t ts ih =>
      have hcons := fits_cons.mp h
      exact fits_cons.mpr ⟨Nat.le_trans hle hcons.1, ih hcons.2 (openAfter_mono hle t)⟩

/-- As many parentheses are open after the tokens as before. -/
def Balanced (ts : List Token) : Prop := ∀ n, ts.foldl openAfter n = n

theorem Balanced.append {ts us : List Token} (h : Balanced ts) (h' : Balanced us) :
    Balanced (ts ++ us) := by
  intro n
  rw [List.foldl_append, h n, h' n]

theorem Balanced.parens {ts : List Token} (h : Balanced ts) :
    Balanced (.openParen :: (ts ++ [.closeParen])) := by
  intro n
  simp only [List.foldl_cons, List.foldl_append, List.foldl_nil, openAfter, h (n + 1)]
  omega

/-- A token that is no parenthesis leaves the count as it is. -/
theorem Balanced.cons {t : Token} {ts : List Token} (ht : ∀ n, openAfter n t = n)
    (h : Balanced ts) : Balanced (t :: ts) := by
  intro n
  rw [List.foldl_cons, ht, h n]

/-- A token that is no parenthesis is always within the limit. -/
theorem fits_plain {n : Nat} {t : Token} {ts : List Token} (ht : ∀ n, openAfter n t = n) :
    Fits n (t :: ts) ↔ Fits n ts := by
  rw [fits_cons, ht, and_iff_right_iff_imp]
  exact Fits.le

theorem Balanced.fits_append {n : Nat} {ts us : List Token} (h : Balanced ts) :
    Fits n (ts ++ us) ↔ Fits n ts ∧ Fits n us := by
  rw [Grammar.fits_append, h n]

/-- What stands in parentheses has one more open around it. -/
theorem Balanced.fits_parens {n : Nat} {ts : List Token} (h : Balanced ts) :
    Fits n (.openParen :: (ts ++ [.closeParen])) ↔ n < maxNesting ∧ Fits (n + 1) ts := by
  rw [fits_cons, openAfter, h.fits_append, fits_cons, fits_nil, openAfter]
  constructor
  · rintro ⟨_, hts, hle, _⟩
    exact ⟨hle, hts⟩
  · rintro ⟨hlt, hts⟩
    exact ⟨Nat.le_of_lt hlt, hts, hlt, Nat.le_of_lt hlt⟩

/-! ## First tokens -/

theorem Term.head {ts : List Token} {text : String} (h : Term ts text) :
    ∃ name us, ts = .name name :: us := by
  cases h with
  | name text => exact ⟨text, [], rfl⟩
  | applied first _ => exact ⟨first, _, rfl⟩

theorem Pieces.head {ts : List Token} {parts : List String} (h : Pieces ts parts)
    (hparts : parts ≠ []) : ∃ t us, ts = t :: us ∧ t ≠ .openParen ∧ t ≠ .closeParen := by
  cases h with
  | nil => exact absurd rfl hparts
  | term h _ =>
      obtain ⟨name, us, rfl⟩ := h.head
      exact ⟨.name name, _, rfl, Token.noConfusion, Token.noConfusion⟩
  | const value _ => exact ⟨.const value, _, rfl, Token.noConfusion, Token.noConfusion⟩
  | compare op _ => exact ⟨.compare op, _, rfl, Token.noConfusion, Token.noConfusion⟩

theorem Pieces.eq_nil {ts : List Token} (h : Pieces ts []) : ts = [] := by
  cases h
  rfl

theorem ArgumentList.head {ts : List Token} {args : List String} (h : ArgumentList ts args) :
    ∃ t us, ts = t :: us ∧ t ≠ .closeParen := by
  cases h with
  | last h hparts =>
      obtain ⟨t, us, rfl, _, ht⟩ := h.head hparts
      exact ⟨t, us, rfl, ht⟩
  | more h hparts _ =>
      obtain ⟨t, us, rfl, _, ht⟩ := h.head hparts
      exact ⟨t, _, rfl, ht⟩

theorem Atom.head {ts : List Token} {text : String} (h : Atom ts text) :
    ∃ name us, ts = .name name :: us := by
  cases h with
  | term h => exact h.head
  | comparison op h _ =>
      obtain ⟨name, us, rfl⟩ := h.head
      exact ⟨name, _, rfl⟩

theorem Derives.head_primary {ts : List Token} {f : Formula} (h : Derives .primary ts f) :
    ∃ t us, ts = t :: us ∧ t ≠ .not := by
  cases h with
  | atom h =>
      obtain ⟨name, us, rfl⟩ := h.head
      exact ⟨.name name, us, rfl, Token.noConfusion⟩
  | const value => exact ⟨.const value, [], rfl, Token.noConfusion⟩
  | parens _ => exact ⟨.openParen, _, rfl, Token.noConfusion⟩

/-! ## Balance -/

mutual

theorem Term.balanced {ts : List Token} {text : String} : Term ts text → Balanced ts
  | .name _ => fun _ => rfl
  | .applied _ h => .cons (fun _ => rfl) h.balanced.parens

theorem Arguments.balanced {ts : List Token} {args : List String} :
    Arguments ts args → Balanced ts
  | .none => fun _ => rfl
  | .some h => h.balanced

theorem ArgumentList.balanced {ts : List Token} {args : List String} :
    ArgumentList ts args → Balanced ts
  | .last h _ => h.balanced
  | .more h _ h' => h.balanced.append (.cons (fun _ => rfl) h'.balanced)

theorem Pieces.balanced {ts : List Token} {parts : List String} : Pieces ts parts → Balanced ts
  | .nil => fun _ => rfl
  | .term h h' => h.balanced.append h'.balanced
  | .const _ h => .cons (fun _ => rfl) h.balanced
  | .compare _ h => .cons (fun _ => rfl) h.balanced

end

theorem Operand.balanced {ts : List Token} {text : String} (h : Operand ts text) :
    Balanced ts := by
  cases h with
  | term h => exact h.balanced
  | const value => exact fun _ => rfl

theorem Atom.balanced {ts : List Token} {text : String} (h : Atom ts text) : Balanced ts := by
  cases h with
  | term h => exact h.balanced
  | comparison op h h' => exact h.balanced.append (.cons (fun _ => rfl) h'.balanced)

theorem Derives.balanced {level : Level} {ts : List Token} {f : Formula}
    (h : Derives level ts f) : Balanced ts := by
  induction h with
  | atom h => exact h.balanced
  | const value => exact fun _ => rfl
  | parens _ ih => exact ih.parens
  | primary _ ih => exact ih
  | not _ ih => exact .cons (fun _ => rfl) ih
  | operand c _ ih => exact ih
  | binary c _ _ ih ih' => exact ih.append (.cons (fun _ => rfl) ih')

end Elenchus.Grammar
