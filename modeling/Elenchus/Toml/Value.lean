import Elenchus.Decimal.Nearest
import Elenchus.Json.Token
import Elenchus.Toml.Table

/-!
# Keys and values of TOML

The readers of keys and values take what they read from the head of a text and hand on the rest.
Texts stand in double quotes with escapes or in single quotes without; with three quotes at either
end they may go over several lines.  Numbers and words are taken as one run of characters, as long
as can be, and that run has to be a number or a word as a whole.  Of a date or a time only the form
is checked.
-/

namespace Elenchus.Toml

/-- The blanks within a line. -/
def isSpace (c : Char) : Bool := c = ' ' || c = '\t'

/-- What follows the blanks at the head of a text. -/
def skipSpace (cs : List Char) : List Char := cs.dropWhile isSpace

/-- The characters that may stand in a comment or a text. -/
def isTextChar (c : Char) : Bool := c = '\t' || (32 ≤ c.toNat && c.toNat ≠ 127)

/-- What follows the comment at the head of a text, if there is one. -/
def skipComment : List Char → List Char
  | '#' :: cs => cs.dropWhile isTextChar
  | cs => cs

/-- What follows the end of the line at the head of a text. -/
def lineEnd? : List Char → Option (List Char)
  | [] => some []
  | '\n' :: cs => some cs
  | '\r' :: '\n' :: cs => some cs
  | _ => none

/-- What follows the line, if it holds nothing more than blanks and a comment. -/
def restOfLine? (cs : List Char) : Option (List Char) := lineEnd? (skipComment (skipSpace cs))

/-- What follows blanks, ends of lines and comments. -/
def skipLines (cs : List Char) : List Char :=
  match cs with
  | '\r' :: '\n' :: rest => skipLines rest
  | '#' :: rest => skipLines (rest.dropWhile isTextChar)
  | c :: rest => if isSpace c || c = '\n' then skipLines rest else c :: rest
  | [] => []
termination_by cs.length
decreasing_by
  · simp only [List.length_cons]
    omega
  · have : (rest.dropWhile isTextChar).length ≤ rest.length :=
      (List.dropWhile_sublist isTextChar).length_le
    simp only [List.length_cons]
    omega
  · simp only [List.length_cons]
    omega

/-! ## Texts -/

/-- The character of a one-letter escape. -/
def escaped? : Char → Option Char
  | '/' => none
  | c => Json.escaped? c

/-- The character of an escape of eight hexadecimal digits. -/
def longChar? : List Char → Option Char
  | [a, b, c, d, e, f, g, h] => do
    Json.unitChar? ((← Json.hexFour? a b c d) * 0x10000 + (← Json.hexFour? e f g h))
  | _ => none

/-- The character that an escape stands for, and what follows it.  The backslash is read already. -/
def escape? : List Char → Option (Char × List Char)
  | 'u' :: a :: b :: c :: d :: rest =>
    ((Json.hexFour? a b c d).bind Json.unitChar?).map fun char => (char, rest)
  | 'U' :: rest => (longChar? (rest.take 8)).map fun char => (char, rest.drop 8)
  | c :: rest => (escaped? c).map fun char => (char, rest)
  | [] => none

theorem length_lt_of_escape {cs rest : List Char} {char : Char}
    (h : escape? cs = some (char, rest)) : rest.length < cs.length := by
  unfold escape? at h
  split at h
  · simp only [Option.map_eq_some_iff, Prod.mk.injEq] at h
    obtain ⟨_, _, _, rfl⟩ := h
    simp only [List.length_cons]
    omega
  · simp only [Option.map_eq_some_iff, Prod.mk.injEq] at h
    obtain ⟨_, _, _, rfl⟩ := h
    simp only [List.length_drop, List.length_cons]
    omega
  · simp only [Option.map_eq_some_iff, Prod.mk.injEq] at h
    obtain ⟨_, _, _, rfl⟩ := h
    simp
  · simp at h

/-- The characters after an opening double quote, behind those read already (`acc`, last first). -/
def basicText? (acc : List Char) (cs : List Char) : Option (String × List Char) :=
  match cs with
  | '"' :: rest => some (String.ofList acc.reverse, rest)
  | '\\' :: rest =>
    match h : escape? rest with
    | some (char, rest) =>
      have := length_lt_of_escape h
      basicText? (char :: acc) rest
    | none => none
  | c :: rest => if isTextChar c then basicText? (c :: acc) rest else none
  | [] => none
termination_by cs.length
decreasing_by all_goals grind

/-- The characters after an opening single quote. -/
def literalText? (cs : List Char) : Option (String × List Char) :=
  let isInside (c : Char) : Bool := isTextChar c && c ≠ '\''
  match cs.dropWhile isInside with
  | '\'' :: rest => some (String.ofList (cs.takeWhile isInside), rest)
  | _ => none

/-! ## Texts over several lines -/

/-- What follows blanks and ends of lines. -/
def skipLineEnds (cs : List Char) : List Char :=
  match cs with
  | '\r' :: '\n' :: rest => skipLineEnds rest
  | c :: rest => if isSpace c || c = '\n' then skipLineEnds rest else c :: rest
  | [] => []
termination_by cs.length

theorem length_skipLineEnds_le (cs : List Char) : (skipLineEnds cs).length ≤ cs.length := by
  fun_induction skipLineEnds cs <;> simp_all <;> omega

/-- What follows a backslash that ends its line: the blanks after it, the end of the line, and all
blanks and ends of lines behind that. -/
def joinLine? (cs : List Char) : Option (List Char) :=
  match skipSpace cs with
  | '\n' :: rest => some (skipLineEnds rest)
  | '\r' :: '\n' :: rest => some (skipLineEnds rest)
  | _ => none

theorem length_le_of_joinLine {cs rest : List Char} (h : joinLine? cs = some rest) :
    rest.length ≤ cs.length := by
  have blanks : (skipSpace cs).length ≤ cs.length := (List.dropWhile_sublist isSpace).length_le
  unfold joinLine? at h
  split at h
  next r e =>
    have := length_skipLineEnds_le r
    simp_all
    omega
  next r e =>
    have := length_skipLineEnds_le r
    simp_all
    omega
  · simp at h

/-- The characters after three opening quotes, behind those read already (`acc`, last first).  Three
quotes end the text, and up to two more directly before them belong to it.  `escapes` tells whether
a backslash has a meaning: it begins an escape or joins two lines. -/
def longText? (quote : Char) (escapes : Bool) (acc : List Char) (cs : List Char) :
    Option (String × List Char) :=
  match cs with
  | [] => none
  | '\r' :: '\n' :: rest => longText? quote escapes ('\n' :: acc) rest
  | c :: rest =>
    if c = quote then
      let run := (c :: rest).takeWhile (· = quote)
      if run.length < 3 then longText? quote escapes (c :: acc) rest
      else if run.length ≤ 5 then
        let text := acc.reverse ++ run.drop 3
        some (String.ofList text, (c :: rest).drop run.length)
      else none
    else if c = '\\' && escapes then
      match h : joinLine? rest with
      | some rest =>
        have := length_le_of_joinLine h
        longText? quote escapes acc rest
      | none =>
        match h : escape? rest with
        | some (char, rest) =>
          have := length_lt_of_escape h
          longText? quote escapes (char :: acc) rest
        | none => none
    else if isTextChar c || c = '\n' then longText? quote escapes (c :: acc) rest
    else none
termination_by cs.length
decreasing_by all_goals grind

/-- The text after three opening quotes; an end of line directly behind them is no part of it. -/
def linesText? (quote : Char) (escapes : Bool) : List Char → Option (String × List Char)
  | '\n' :: cs => longText? quote escapes [] cs
  | '\r' :: '\n' :: cs => longText? quote escapes [] cs
  | cs => longText? quote escapes [] cs

/-! ## Keys -/

/-- The characters of a key without quotes. -/
def isKeyChar (c : Char) : Bool := c.isAlphanum || c = '_' || c = '-'

/-- A key without dots. -/
def key? (cs : List Char) : Option (String × List Char) :=
  match cs with
  | '"' :: rest => basicText? [] rest
  | '\'' :: rest => literalText? rest
  | _ =>
    match cs.takeWhile isKeyChar with
    | [] => none
    | key => some (String.ofList key, cs.dropWhile isKeyChar)

/-- The parts of a dotted key, at most `fuel` of them, and what follows the key and its blanks. -/
def parts? : (fuel : Nat) → List Char → Option (List String × List Char)
  | 0, _ => none
  | fuel + 1, cs => do
    let (key, rest) ← key? (skipSpace cs)
    match skipSpace rest with
    | '.' :: rest => do
      let (parts, rest) ← parts? fuel rest
      return (key :: parts, rest)
    | rest => return ([key], rest)

/-- The most tables that may lie in one another along one key or one value. -/
def maxDepth : Nat := 127

/-- The parts of a dotted key, and what follows the key and its blanks. -/
def path? (cs : List Char) : Option (List String × List Char) := do
  let (parts, rest) ← parts? cs.length cs
  if parts.length ≤ maxDepth then some (parts, rest) else none

/-! ## Numbers -/

/-- The value of a digit, if it is one to the given base. -/
def digit? (base : Nat) (c : Char) : Option Nat := (Json.hexDigit? c).filter (· < base)

/-- The value of digits to a base, `n` being the value of those before.  A low line may stand
between two digits. -/
def digits? (base n : Nat) : List Char → Option Nat
  | [] => none
  | [c] => do return base * n + (← digit? base c)
  | c :: '_' :: rest => do digits? base (base * n + (← digit? base c)) rest
  | c :: rest => do digits? base (base * n + (← digit? base c)) rest

/-- A decimal whole number without needless zeros. -/
def whole? : List Char → Option Nat
  | ['0'] => some 0
  | '0' :: _ => none
  | cs => digits? 10 0 cs

/-- A sign at the head of a number, as whether it is a minus, and what follows. -/
def signed : List Char → Bool × List Char
  | '-' :: cs => (true, cs)
  | '+' :: cs => (false, cs)
  | cs => (false, cs)

/-- An integer in 64 bits with a sign. -/
def integer? (cs : List Char) : Option Int := do
  let (negative, magnitude) ← match cs with
    | '0' :: 'x' :: rest => (digits? 16 0 rest).map (false, ·)
    | '0' :: 'o' :: rest => (digits? 8 0 rest).map (false, ·)
    | '0' :: 'b' :: rest => (digits? 2 0 rest).map (false, ·)
    | cs => (whole? (signed cs).2).map ((signed cs).1, ·)
  let n : Int := if negative then -magnitude else magnitude
  if fitsSigned n then some n else none

/-- The exponent of a decimal: none is zero. -/
def exponent? : List Char → Option Int
  | [] => some 0
  | cs => do
    let (negative, rest) := signed cs
    let magnitude ← digits? 10 0 rest
    return if negative then -magnitude else magnitude

/-- The magnitude of a decimal with a point, an exponent or both. -/
def decimal? (cs : List Char) : Option Decimal.Scaled := do
  let isMark (c : Char) : Bool := c = 'e' || c = 'E'
  let body := cs.takeWhile (!isMark ·)
  let mark := cs.dropWhile (!isMark ·)
  let exponent ← match mark with
    | [_] => none
    | mark => exponent? (mark.drop 1)
  let whole := body.takeWhile (· ≠ '.')
  let value ← whole? whole
  match body.dropWhile (· ≠ '.') with
  | [] => if mark = [] then none else some ⟨value, exponent⟩
  | _ :: fraction =>
    let places := fraction.countP (· ≠ '_')
    return ⟨value * Nat.pow 10 places + (← digits? 10 0 fraction), exponent - places⟩

/-- A floating-point number.  A positive one past the largest is none, a negative one is infinite.
-/
def float? (cs : List Char) : Option Float := do
  let (negative, rest) := signed cs
  let sign (x : Float) : Float := if negative then -x else x
  if rest = "inf".toList then some (sign (1 / 0))
  else if rest = "nan".toList then some (sign (0 / 0))
  else
    let x := sign (← decimal? rest).nearest
    if x == 1 / 0 then none else some x

/-- The characters of numbers and words. -/
def isWordChar (c : Char) : Bool := c.isAlphanum || c = '_' || c = '+' || c = '-' || c = '.'

/-- The value of a number or a word. -/
def word? (cs : List Char) : Option Datum :=
  if cs = "true".toList then some (.bool true)
  else if cs = "false".toList then some (.bool false)
  else
    match integer? cs with
    | some n => some (.int n)
    | none => (float? cs).map .float

/-! ## Dates and times -/

/-- What follows two digits, if the number they write lies within bounds. -/
def twoDigits? (low high : Nat) : List Char → Option (List Char)
  | a :: b :: rest =>
    let n := Json.digitsValue [a, b]
    if a.isDigit && b.isDigit && low ≤ n && n ≤ high then some rest else none
  | _ => none

def mark? (mark : Char) : List Char → Option (List Char)
  | c :: rest => if c = mark then some rest else none
  | [] => none

def date? (cs : List Char) : Option (List Char) := do
  let rest ← mark? '-' (← twoDigits? 0 99 (← twoDigits? 0 99 cs))
  twoDigits? 1 31 (← mark? '-' (← twoDigits? 1 12 rest))

def time? (cs : List Char) : Option (List Char) := do
  let rest ← mark? ':' (← twoDigits? 0 23 cs)
  let rest ← twoDigits? 0 60 (← mark? ':' (← twoDigits? 0 59 rest))
  match rest with
  | '.' :: fraction =>
    return if Json.digitRun fraction = [] then rest else fraction.dropWhile Char.isDigit
  | rest => return rest

/-- What follows the offset of a time from universal time, if there is one. -/
def skipOffset (cs : List Char) : List Char :=
  match cs with
  | c :: rest =>
    if c = 'Z' ∨ c = 'z' then rest
    else if c = '+' ∨ c = '-' then
      (do twoDigits? 0 59 (← mark? ':' (← twoDigits? 0 23 rest))).getD cs
    else cs
  | [] => []

/-- What follows a date, a time, or a date with a time. -/
def moment? (cs : List Char) : Option (List Char) :=
  match date? cs with
  | none => time? cs
  | some [] => some []
  | some (c :: rest) =>
    if c = 'T' ∨ c = 't' ∨ c = ' ' then some (((time? rest).map skipOffset).getD (c :: rest))
    else some (c :: rest)

/-! ## Values -/

/-- A value that is neither a text nor made of others. -/
def plain? (cs : List Char) : Option (Datum × List Char) :=
  match moment? cs with
  | some rest => some (.date (String.ofList (cs.take (cs.length - rest.length))), rest)
  | none => do return (← word? (cs.takeWhile isWordChar), cs.dropWhile isWordChar)

mutual

/-- A value, inside `depth` arrays and inline tables.  `fuel` bounds the levels and items of it. -/
def value? : (fuel depth : Nat) → List Char → Option (Datum × List Char)
  | 0, _, _ => none
  | fuel + 1, depth, cs =>
    match cs with
    | '"' :: '"' :: '"' :: rest =>
      (linesText? '"' true rest).map fun (s, rest) => (.text s, rest)
    | '\'' :: '\'' :: '\'' :: rest =>
      (linesText? '\'' false rest).map fun (s, rest) => (.text s, rest)
    | '"' :: rest => (basicText? [] rest).map fun (s, rest) => (.text s, rest)
    | '\'' :: rest => (literalText? rest).map fun (s, rest) => (.text s, rest)
    | '[' :: rest =>
      if maxDepth ≤ depth then none
      else do
        let (items, rest) ← items? fuel (depth + 1) (skipLines rest)
        return (.list items, rest)
    | '\x7b' :: rest =>
      if maxDepth ≤ depth then none
      else
        match skipSpace rest with
        | '\x7d' :: rest => some (.record [], rest)
        | rest => do
          let (fields, rest) ← fields? fuel (depth + 1) [] rest
          return (.record fields, rest)
    | cs => plain? cs

/-- The items of an array up to its end. -/
def items? : (fuel depth : Nat) → List Char → Option (List Datum × List Char)
  | 0, _, _ => none
  | _, _, ']' :: rest => some ([], rest)
  | fuel + 1, depth, cs => do
    let (item, rest) ← value? fuel depth cs
    match skipLines rest with
    | ',' :: rest => do
      let (items, rest) ← items? fuel depth (skipLines rest)
      return (item :: items, rest)
    | ']' :: rest => return ([item], rest)
    | _ => none

/-- The fields of an inline table up to its end, behind the fields read already. -/
def fields? : (fuel depth : Nat) → List (String × Datum) → List Char →
    Option (List (String × Datum) × List Char)
  | 0, _, _, _ => none
  | fuel + 1, depth, fields, cs => do
    let (path, rest) ← path? cs
    match rest with
    | '=' :: rest => do
      let (value, rest) ← value? fuel depth (skipSpace rest)
      let fields ← assignInline fields value path
      match skipSpace rest with
      | ',' :: rest => fields? fuel depth fields rest
      | '\x7d' :: rest => return (fields, rest)
      | _ => none
    | _ => none

end

end Elenchus.Toml
