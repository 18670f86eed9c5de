import Elenchus.Bias.Subject
import Elenchus.Proofs.Formula.Occurrence

/-!
# Subjects and names

The subjects of an expression are found in the text of its atoms, by a scan for words that knows
nothing of tokens.  What the scan finds is what it would find in the names of the atom one by one, a
name with arguments being scanned with the parenthesis after it (`Grammar.Atom.subjects_eq`).  So it
never joins two names, nor takes a constant or a comparison operator for a subject.

It may find less than a name, or more than it should.  A word is made of letters, digits and low
lines, and a name may have other characters too, a hyphen or a dot among them; the scan then sees
several words, and of these the parenthesis takes away the last one only.  Where a name is one word
(`IsPlain`) the two notions agree: its subject is the name itself, unless it has arguments or but one
character (`Subject.mem_ofName_plain`).
-/

namespace Elenchus

/-! ## Words of a text -/

namespace Subject

/-- What a text may go on with for its last word to end there and to be no predicate. -/
def Ends (rest : List Char) : Prop :=
  ∀ c, rest.head? = some c → isWordChar c = false ∧ c ≠ '('

theorem ends_cons {c : Char} {rest : List Char} (h : c ∈ [' ', ',', ')']) : Ends (c :: rest) := by
  have hplain : ∀ d ∈ [' ', ',', ')'], isWordChar d = false ∧ d ≠ '(' :=
    forall_of_all (by decide)
  intro d hd
  cases hd
  exact hplain c h

variable {w cs rest : List Char} {c : Char}

theorem ofChars_word (h : isWordChar c = true) : ofChars w (c :: cs) = ofChars (w ++ [c]) cs := by
  simp [ofChars, h]

/-- Between words nothing is found. -/
theorem ofChars_gap (h : isWordChar c = false) : ofChars [] (c :: cs) = ofChars [] cs := by
  simp [ofChars, h, isSubject]

/-- Where a text has no word character, a word ends. -/
theorem ofChars_end (h : isWordChar c = false) (cs : List Char) :
    ofChars w (c :: cs) = ofChars w [c] ++ ofChars [] cs := by
  have hnil : ofChars [] [] = [] := rfl
  rw [ofChars, ofChars]
  by_cases hsubject : isSubject w c <;> simp [h, hsubject, hnil]

/-- A word ends with the text as it does before any character that is no parenthesis. -/
theorem ofChars_last (h : isWordChar c = false) (hparen : c ≠ '(') :
    ofChars w [c] = ofChars w [] := by
  have hsame : isSubject w c = isSubject w ' ' := by
    rw [isSubject, isSubject, decide_eq_true hparen, decide_eq_true (show ' ' ≠ '(' by decide)]
  have hnil : ofChars [] [] = [] := rfl
  rw [ofChars, ofChars, hnil, hsame]
  simp [h]

theorem ofChars_append (h : Ends rest) :
    ofChars w (cs ++ rest) = ofChars w cs ++ ofChars [] rest := by
  induction cs generalizing w with
  | nil =>
      cases rest with
      | nil => simp [show ofChars [] [] = [] from rfl]
      | cons c rest =>
          obtain ⟨hword, hparen⟩ := h c rfl
          rw [List.nil_append, ofChars_end hword rest, ofChars_gap hword, ofChars_last hword hparen]
  | cons c cs ih =>
      rw [List.cons_append]
      cases hword : isWordChar c with
      | true => rw [ofChars_word hword, ofChars_word hword, ih]
      | false => rw [ofChars_end hword (cs ++ rest), ofChars_end hword cs, ih, List.append_assoc]

/-- Where a text has no word character, it is scanned in two parts. -/
theorem ofChars_append_cons (h : isWordChar c = false) :
    ofChars w (cs ++ c :: rest) = ofChars w (cs ++ [c]) ++ ofChars [] rest := by
  induction cs generalizing w with
  | nil => exact ofChars_end h rest
  | cons d cs ih =>
      rw [List.cons_append, List.cons_append]
      cases hword : isWordChar d with
      | true => rw [ofChars_word hword, ofChars_word hword, ih]
      | false =>
          rw [ofChars_end hword (cs ++ c :: rest), ofChars_end hword (cs ++ [c]), ih,
            List.append_assoc]

/-- Nothing is found where there are no words. -/
theorem ofChars_eq_nil (h : ∀ c ∈ cs, isWordChar c = false) : ofChars [] cs = [] := by
  induction cs with
  | nil => rfl
  | cons c cs ih =>
      obtain ⟨hc, hcs⟩ := List.forall_mem_cons.mp h
      rw [ofChars_gap hc, ih hcs]

/-! ## Words of names -/

/-- The words that are found in a name, which has arguments or has none. -/
def ofName (name : String) (applied : Bool) : List (List Char) :=
  ofChars [] (name.toList ++ if applied then ['('] else [])

/-- The words that are found in the names among some tokens. -/
def ofTokens : List Token → List (List Char)
  | [] => []
  | .name name :: ts => ofName name (ts.head? = some .openParen) ++ ofTokens ts
  | _ :: ts => ofTokens ts

theorem ofTokens_append {ts us : List Token} (h : us.head? ≠ some .openParen) :
    ofTokens (ts ++ us) = ofTokens ts ++ ofTokens us := by
  induction ts with
  | nil => rfl
  | cons t ts ih =>
      cases t with
      | name text =>
          have happlied : (ts ++ us).head? = some .openParen ↔ ts.head? = some .openParen := by
            cases ts <;> simp [h]
          simp only [List.cons_append, ofTokens, ih, happlied, List.append_assoc]
      | _ => exact ih

/-! ## Texts joined -/

section
variable {cs ds : List Char} {ts us : List Token}

theorem ofChars_join (h : ofChars [] cs = ofTokens ts) (h' : ofChars [] ds = ofTokens us)
    (hus : us.head? ≠ some .openParen) :
    ofChars [] (cs ++ ' ' :: ds) = ofTokens (ts ++ us) := by
  rw [ofChars_append (ends_cons (by simp)), ofChars_gap (by decide), h, h', ofTokens_append hus]

theorem ofChars_join_comma (h : ofChars [] cs = ofTokens ts) (h' : ofChars [] ds = ofTokens us) :
    ofChars [] (cs ++ ',' :: ' ' :: ds) = ofTokens (ts ++ .comma :: us) := by
  rw [ofChars_append (ends_cons (by simp)), ofChars_gap (by decide), ofChars_gap (by decide), h, h',
    ofTokens_append (by simp)]
  rfl

theorem ofChars_applied (name : String) (h : ofChars [] cs = ofTokens ts) :
    ofChars [] (name.toList ++ '(' :: (cs ++ [')'])) =
      ofTokens (.name name :: .openParen :: (ts ++ [.closeParen])) := by
  have hinside : ofChars [] (cs ++ [')']) = ofTokens (ts ++ [.closeParen]) := by
    rw [ofChars_append (ends_cons (by simp)), h, ofTokens_append (by simp)]
    rfl
  rw [ofChars_append_cons (by decide), hinside]
  rfl

theorem ofChars_name (name : String) : ofChars [] name.toList = ofTokens [.name name] := by
  simp [ofTokens, ofName]

theorem ofChars_sign (op : Comparison) : ofChars [] op.sign.toList = ofTokens [.compare op] := by
  cases op <;> exact ofChars_eq_nil (forall_of_all (by decide))

theorem ofChars_constantWord (value : Bool) :
    ofChars [] (constantWord value).toList = ofTokens [.const value] := by
  cases value <;> decide

end

end Subject

/-! ## The text of an atom -/

namespace Grammar

open Subject

/-- One more part of an argument. -/
theorem Pieces.subjects_cons {first : String} {parts : List String} {ts us : List Token}
    (h : Pieces us parts) (hfirst : ofChars [] first.toList = ofTokens ts)
    (hmore : ofChars [] (" ".intercalate parts).toList = ofTokens us) :
    ofChars [] (" ".intercalate (first :: parts)).toList = ofTokens (ts ++ us) := by
  by_cases hparts : parts = []
  · subst hparts
    rw [h.eq_nil, List.append_nil, String.intercalate_singleton]
    exact hfirst
  · have hus : us.head? ≠ some .openParen := by
      obtain ⟨t, us, rfl, ht, _⟩ := h.head hparts
      simpa using ht
    rw [String.intercalate_cons_of_ne_nil hparts]
    simpa [String.toList_append] using ofChars_join hfirst hmore hus

mutual

theorem Term.subjects_eq {ts : List Token} {text : String} :
    Term ts text → ofChars [] text.toList = ofTokens ts
  | .name name => ofChars_name name
  | .applied name h => by
      simpa [String.toList_append] using ofChars_applied name h.subjects_eq

theorem Arguments.subjects_eq {ts : List Token} {args : List String} :
    Arguments ts args → ofChars [] (", ".intercalate args).toList = ofTokens ts
  | .none => rfl
  | .some h => h.subjects_eq.2

theorem ArgumentList.subjects_eq {ts : List Token} {args : List String} :
    ArgumentList ts args →
      args ≠ [] ∧ ofChars [] (", ".intercalate args).toList = ofTokens ts
  | .last h hparts => by
      refine ⟨List.cons_ne_nil _ _, ?_⟩
      rw [String.intercalate_singleton]
      exact h.subjects_eq
  | .more h hparts hlist => by
      obtain ⟨hne, hmore⟩ := hlist.subjects_eq
      refine ⟨List.cons_ne_nil _ _, ?_⟩
      rw [String.intercalate_cons_of_ne_nil hne]
      simpa [String.toList_append] using ofChars_join_comma h.subjects_eq hmore

theorem Pieces.subjects_eq {ts : List Token} {parts : List String} :
    Pieces ts parts → ofChars [] (" ".intercalate parts).toList = ofTokens ts
  | .nil => rfl
  | .term h h' => h'.subjects_cons h.subjects_eq h'.subjects_eq
  | .const value h => h.subjects_cons (ofChars_constantWord value) h.subjects_eq
  | .compare op h => h.subjects_cons (ofChars_sign op) h.subjects_eq

end

theorem Operand.subjects_eq {ts : List Token} {text : String} (h : Operand ts text) :
    ofChars [] text.toList = ofTokens ts := by
  cases h with
  | term h => exact h.subjects_eq
  | const value => exact ofChars_constantWord value

theorem Operand.head {ts : List Token} {text : String} (h : Operand ts text) :
    ts.head? ≠ some .openParen := by
  cases h with
  | term h =>
      obtain ⟨name, us, rfl⟩ := h.head
      simp
  | const value => simp

/-- The words that are found in the text of an atom are those that are found in its names. -/
theorem Atom.subjects_eq {ts : List Token} {text : String} (h : Atom ts text) :
    ofChars [] text.toList = ofTokens ts := by
  cases h with
  | term h => exact h.subjects_eq
  | comparison op h h' =>
      have hright := ofChars_join (ofChars_sign op) h'.subjects_eq h'.head
      have hwhole := ofChars_join h.subjects_eq hright (by simp)
      simpa [String.toList_append] using hwhole

end Grammar

/-! ## Names of one word -/

namespace Subject

/-- A name of letters, digits and low lines. -/
def IsPlain (name : String) : Prop := ∀ c ∈ name.toList, isWordChar c = true

instance (name : String) : Decidable (IsPlain name) :=
  decidable_of_iff (name.toList.all isWordChar = true) List.all_eq_true

theorem ofChars_of_plain {w cs rest : List Char} (h : ∀ c ∈ cs, isWordChar c = true) :
    ofChars w (cs ++ rest) = ofChars (w ++ cs) rest := by
  induction cs generalizing w with
  | nil => simp
  | cons c cs ih =>
      obtain ⟨hc, hcs⟩ := List.forall_mem_cons.mp h
      rw [List.cons_append, ofChars_word hc, ih hcs, List.append_assoc, List.singleton_append]

/-- The subject of a name of one word is the name, unless it has arguments or but one character. -/
theorem mem_ofName_plain {name : String} (hname : IsName name) (h : IsPlain name) (applied : Bool)
    {word : List Char} :
    word ∈ ofName name applied ↔ word = name.toList ∧ applied = false ∧ 1 < name.length := by
  have hconstant : name.toList ≠ ['t', 'r', 'u', 'e'] ∧ name.toList ≠ ['f', 'a', 'l', 's', 'e'] := by
    constructor <;> intro heq <;> refine hname.notConstant ?_ <;>
      rw [← String.ofList_toList (s := name), heq] <;> decide
  have hparen : isWordChar '(' = false := by decide
  rw [ofName, ofChars_of_plain h, List.nil_append]
  cases applied with
  | true =>
      have hnone : ofChars name.toList ['('] = [] := by
        rw [ofChars, hparen, isSubject, decide_eq_false (show ¬('(' ≠ '(') by decide)]
        rfl
      simp [hnone]
  | false => simp [ofChars, isSubject, hconstant, and_comm, String.length_toList]

end Subject

end Elenchus
