/-!
# Tokens of JSON

A JSON text is taken apart into punctuation, words, numbers and quoted texts.  The first place where
the text fits no token is marked by the token `broken`, after which nothing is read: whether the
fault matters, and when, is for the reader of the tokens to say.

Each reader below returns what is left of the text, and a lemma beside it says that this is shorter;
`tokens` ends by that.
-/

namespace Elenchus.Json

/-- A number as it was written: sign, digits before and after the point, and exponent.  A part that
is absent is told from one that is zero. -/
structure Numeral where
  negative : Bool
  whole : List Char
  fraction : Option (List Char)
  exponent : Option Int
deriving DecidableEq, Repr

/-- What stands between quotes: a text, or `none` where a surrogate stands alone, which is the half
of a character. -/
abbrev Quoted := Option String

inductive Token where
  | openList
  | closeList
  | openRecord
  | closeRecord
  | colon
  | comma
  | null
  | bool (value : Bool)
  | number (numeral : Numeral)
  | text (value : Quoted)
  /-- The text fits no token from here on. -/
  | broken
deriving DecidableEq, Repr

/-- The blanks between tokens. -/
def isBlank (c : Char) : Bool := c = ' ' || c = '\n' || c = '\t' || c = '\r'

def hexDigit? (c : Char) : Option Nat :=
  if '0' ≤ c ∧ c ≤ '9' then some (c.toNat - '0'.toNat)
  else if 'a' ≤ c ∧ c ≤ 'f' then some (c.toNat - 'a'.toNat + 10)
  else if 'A' ≤ c ∧ c ≤ 'F' then some (c.toNat - 'A'.toNat + 10)
  else none

/-- The number that four hexadecimal digits write. -/
def hexFour? (a b c d : Char) : Option Nat := do
  return ((← hexDigit? a) * 16 + (← hexDigit? b)) * 256 + (← hexDigit? c) * 16 + (← hexDigit? d)

/-- The character that a code outside the surrogates stands for. -/
def unitChar? (n : Nat) : Option Char :=
  if h : n.isValidChar then some (Char.ofNatAux n h) else none

/-- The character that two surrogates stand for together. -/
def pairChar? (high low : Nat) : Option Char :=
  if 0xD800 ≤ high ∧ high < 0xDC00 ∧ 0xDC00 ≤ low ∧ low < 0xE000 then
    unitChar? (0x10000 + (high - 0xD800) * 0x400 + (low - 0xDC00))
  else none

/-- The character of a one-letter escape. -/
def escaped? : Char → Option Char
  | '"' => some '"'
  | '\\' => some '\\'
  | '/' => some '/'
  | 'b' => some '\x08'
  | 'f' => some '\x0c'
  | 'n' => some '\n'
  | 'r' => some '\r'
  | 't' => some '\t'
  | _ => none

/-- The characters after an opening quote, behind those read already (`acc`, last first): the quoted
text and what follows the closing quote.  A control character, an escape of another form and a
missing quote are faults.  A lone surrogate is none, but there is no text from it on. -/
def quotedText (acc : Option (List Char)) :
    List Char → Option (Option (List Char) × List Char)
  | [] => none
  | '"' :: rest => some (acc.map List.reverse, rest)
  | '\\' :: 'u' :: a :: b :: c :: d :: '\\' :: 'u' :: e :: f :: g :: h :: rest =>
    match hexFour? a b c d with
    | none => none
    | some high =>
      match (hexFour? e f g h).bind (pairChar? high) with
      | some char => quotedText (acc.map (char :: ·)) rest
      | none =>
        quotedText (acc.bind fun acc => (unitChar? high).map (· :: acc))
          ('\\' :: 'u' :: e :: f :: g :: h :: rest)
  | '\\' :: 'u' :: a :: b :: c :: d :: rest =>
    match hexFour? a b c d with
    | none => none
    | some unit => quotedText (acc.bind fun acc => (unitChar? unit).map (· :: acc)) rest
  | '\\' :: c :: rest =>
    match escaped? c with
    | some char => quotedText (acc.map (char :: ·)) rest
    | none => none
  | c :: rest => if c.toNat < 32 then none else quotedText (acc.map (c :: ·)) rest
termination_by cs => cs.length

theorem length_le_of_quotedText {acc s : Option (List Char)} {cs rest : List Char}
    (h : quotedText acc cs = some (s, rest)) : rest.length ≤ cs.length := by
  fun_induction quotedText acc cs <;> simp_all <;> omega

/-- The decimal digits at the head of a text. -/
def digitRun (cs : List Char) : List Char := cs.takeWhile Char.isDigit

/-- The natural number that decimal digits write. -/
def digitsValue (digits : List Char) : Nat :=
  digits.foldl (fun n c => 10 * n + (c.toNat - '0'.toNat)) 0

/-- One digit or more, and what follows them. -/
def digits? (cs : List Char) : Option (List Char × List Char) :=
  if digitRun cs = [] then none else some (digitRun cs, cs.drop (digitRun cs).length)

theorem length_lt_of_digits {cs ds rest : List Char} (h : digits? cs = some (ds, rest)) :
    rest.length < cs.length := by
  unfold digits? at h
  split at h
  · simp at h
  · next some_digits =>
    simp only [Option.some.injEq, Prod.mk.injEq] at h
    obtain ⟨_, rfl⟩ := h
    have := List.length_pos_iff.2 some_digits
    have : (digitRun cs).length ≤ cs.length := (List.takeWhile_sublist Char.isDigit).length_le
    simp only [List.length_drop]
    omega

/-- The digits after a point, if there is one. -/
def fraction? : List Char → Option (Option (List Char) × List Char)
  | '.' :: cs => (digits? cs).map fun (ds, rest) => (some ds, rest)
  | cs => some (none, cs)

theorem length_le_of_fraction {cs rest : List Char} {f : Option (List Char)}
    (h : fraction? cs = some (f, rest)) : rest.length ≤ cs.length := by
  unfold fraction? at h
  split at h
  · simp only [Option.map_eq_some_iff, Prod.exists, Prod.mk.injEq] at h
    obtain ⟨ds, r, hd, _, rfl⟩ := h
    have := length_lt_of_digits hd
    simp only [List.length_cons]
    omega
  · simp_all

/-- The sign of an exponent, and what follows it. -/
def exponentSign : List Char → Int × List Char
  | '+' :: cs => (1, cs)
  | '-' :: cs => (-1, cs)
  | cs => (1, cs)

theorem length_exponentSign_le (cs : List Char) : (exponentSign cs).2.length ≤ cs.length := by
  unfold exponentSign
  split <;> simp

/-- The exponent, if there is one. -/
def exponent? : List Char → Option (Option Int × List Char)
  | c :: cs =>
    if c = 'e' ∨ c = 'E' then
      (digits? (exponentSign cs).2).map fun (ds, rest) =>
        (some ((exponentSign cs).1 * digitsValue ds), rest)
    else some (none, c :: cs)
  | [] => some (none, [])

theorem length_le_of_exponent {cs rest : List Char} {e : Option Int}
    (h : exponent? cs = some (e, rest)) : rest.length ≤ cs.length := by
  unfold exponent? at h
  split at h
  next c cs =>
    split at h
    · simp only [Option.map_eq_some_iff, Prod.exists, Prod.mk.injEq] at h
      obtain ⟨ds, r, hd, _, rfl⟩ := h
      have := length_lt_of_digits hd
      have := length_exponentSign_le cs
      simp only [List.length_cons]
      omega
    · simp_all
  · simp_all

/-- The number at the head of a text, after its sign.  Its first digit is not zero, unless it is the
only one before the point. -/
def numeral (negative : Bool) (cs : List Char) : Option (Numeral × List Char) :=
  match digits? cs with
  | none => none
  | some (whole, rest) =>
    if whole.head? = some '0' ∧ whole.length ≠ 1 then none
    else
      match fraction? rest with
      | none => none
      | some (fraction, rest) =>
        match exponent? rest with
        | none => none
        | some (exponent, rest) => some (⟨negative, whole, fraction, exponent⟩, rest)

theorem length_lt_of_numeral {negative : Bool} {cs rest : List Char} {n : Numeral}
    (h : numeral negative cs = some (n, rest)) : rest.length < cs.length := by
  unfold numeral at h
  split at h
  · simp at h
  next whole r1 h1 =>
    split at h
    · simp at h
    split at h
    · simp at h
    next fraction r2 h2 =>
      split at h
      · simp at h
      next exponent r3 h3 =>
        simp only [Option.some.injEq, Prod.mk.injEq] at h
        have := length_lt_of_digits h1
        have := length_le_of_fraction h2
        have := length_le_of_exponent h3
        obtain ⟨_, rfl⟩ := h
        omega

def words : List (List Char × Token) :=
  [("null".toList, .null), ("true".toList, .bool true), ("false".toList, .bool false)]

def punctuation : Char → Option Token
  | '[' => some .openList
  | ']' => some .closeList
  | '\x7b' => some .openRecord
  | '\x7d' => some .closeRecord
  | ':' => some .colon
  | ',' => some .comma
  | _ => none

/-- The token at the head of a text, `c` its first character, and the text behind the token. -/
def readToken (c : Char) (cs : List Char) : Option (Token × List Char) :=
  match punctuation c with
  | some token => some (token, cs)
  | none =>
    if c = '"' then (quotedText (some []) cs).map fun (s, rest) =>
      (.text (s.map String.ofList), rest)
    else if c = '-' then (numeral true cs).map fun (n, rest) => (.number n, rest)
    else
      match words.find? fun entry => entry.1.isPrefixOf (c :: cs) with
      | some (spelling, token) => some (token, cs.drop (spelling.length - 1))
      | none => (numeral false (c :: cs)).map fun (n, rest) => (.number n, rest)

theorem length_le_of_readToken {c : Char} {cs rest : List Char} {token : Token}
    (h : readToken c cs = some (token, rest)) : rest.length ≤ cs.length := by
  unfold readToken at h
  split at h
  · simp_all
  split at h
  · simp only [Option.map_eq_some_iff, Prod.exists, Prod.mk.injEq] at h
    obtain ⟨s, r, hs, _, rfl⟩ := h
    exact length_le_of_quotedText hs
  split at h
  · simp only [Option.map_eq_some_iff, Prod.exists, Prod.mk.injEq] at h
    obtain ⟨n, r, hn, _, rfl⟩ := h
    have := length_lt_of_numeral hn
    omega
  split at h
  · simp only [Option.some.injEq, Prod.mk.injEq] at h
    obtain ⟨_, rfl⟩ := h
    simp
  · simp only [Option.map_eq_some_iff, Prod.exists, Prod.mk.injEq] at h
    obtain ⟨n, r, hn, _, rfl⟩ := h
    have := length_lt_of_numeral hn
    simp only [List.length_cons] at this
    omega

/-- The tokens of a text, the last of them `broken` if the text fits no token somewhere. -/
def tokens : List Char → List Token
  | [] => []
  | c :: cs =>
    if isBlank c then tokens cs
    else
      match h : readToken c cs with
      | none => [.broken]
      | some (token, rest) =>
        have := length_le_of_readToken h
        token :: tokens rest
termination_by cs => cs.length
decreasing_by all_goals grind

end Elenchus.Json
