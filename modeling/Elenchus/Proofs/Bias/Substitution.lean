import Elenchus.Bias.Rules
import Elenchus.Proofs.Bias.Subject
import Elenchus.Proofs.Clause.Statement
import Elenchus.Proofs.Graph.Views

/-!
# Substituted attributes

A claim and one of its supports are taken for a substitution exactly when both are about something
and about nothing in common.  What an expression is about is told from the tokens that its atoms were
read from: it is the words that stand in their names (`ArgumentGraph.mem_substitutions`), or the names
themselves, those without arguments and of more than one character, as long as every name is one
word (`ArgumentGraph.mem_substitutions_names`).
-/

namespace Elenchus

/-! ## Sets of texts -/

theorem mem_insertText {s t : String} {set : List String} :
    t ∈ insertText s set ↔ t = s ∨ t ∈ set := by
  induction set with
  | nil => simp [insertText]
  | cons u us ih =>
      unfold insertText
      split
      · simp
      split
      · simp_all
      · simp only [List.mem_cons, ih]
        exact or_left_comm

theorem mem_textSet {s : String} {texts : List String} : s ∈ textSet texts ↔ s ∈ texts := by
  suffices ∀ set : List String,
      s ∈ texts.foldl (fun set t => insertText t set) set ↔ s ∈ set ∨ s ∈ texts by
    simpa [textSet] using this []
  induction texts with
  | nil => simp
  | cons t ts ih =>
      intro set
      rw [List.foldl_cons, ih, mem_insertText, List.mem_cons]
      exact or_assoc.trans or_left_comm

/-! ## What a proposition is about -/

/-- A word that is found in the names among some tokens. -/
def HasWord (ts : List Token) (s : String) : Prop := s.toList ∈ Subject.ofTokens ts

/-- A name of more than one character that stands among some tokens without arguments. -/
def HasName (ts : List Token) (s : String) : Prop :=
  1 < s.length ∧
    ∃ before after, ts = before ++ .name s :: after ∧ after.head? ≠ some .openParen

/-- The expression of a proposition can be read, and this is found among the tokens of one of its
atoms. -/
def Proposition.IsAbout (p : Proposition) (found : List Token → String → Prop) (s : String) : Prop :=
  ∃ text f os, p.formalExpression = some text ∧ Formula.parse text = .ok f ∧ f.ReadFrom text os ∧
    ∃ o ∈ os, found (o.stretch.map (·.token)) s

/-- The names in the expression of a proposition are words. -/
def Proposition.IsPlain (p : Proposition) : Prop :=
  ∀ text read, p.formalExpression = some text → tokenize text.toList = .ok read →
    ∀ l ∈ read.lexemes, ∀ name, l.token = .name name → Subject.IsPlain name

theorem Formula.mem_subjects {f : Formula} {text s : String} {os : List Occurrence}
    (h : f.ReadFrom text os) :
    s ∈ f.subjects ↔ ∃ o ∈ os, HasWord (o.stretch.map (·.token)) s := by
  obtain ⟨_, _, hoccurs⟩ := h
  have hatoms : ∀ a, a ∈ f.atoms ↔ ∃ o ∈ os, o.text = a := by
    intro a
    rw [Formula.mem_atoms, ← hoccurs.texts, List.mem_map]
  have hword : ∀ o ∈ os, HasWord (o.stretch.map (·.token)) s ↔
      s ∈ (Subject.ofChars [] o.text.toList).map String.ofList := by
    intro o ho
    rw [HasWord, (hoccurs.atom_of_mem o ho).subjects_eq, List.mem_map]
    constructor
    · intro hmem
      exact ⟨_, hmem, String.ofList_toList⟩
    · rintro ⟨w, hw, rfl⟩
      rwa [String.toList_ofList]
  rw [Formula.subjects, mem_textSet, List.mem_flatMap]
  constructor
  · rintro ⟨a, ha, hs⟩
    obtain ⟨o, ho, rfl⟩ := (hatoms a).mp ha
    exact ⟨o, ho, (hword o ho).mpr hs⟩
  · rintro ⟨o, ho, hs⟩
    exact ⟨o.text, (hatoms _).mpr ⟨o, ho, rfl⟩, (hword o ho).mp hs⟩

theorem Proposition.mem_subjects {p : Proposition} {s : String} :
    s ∈ p.subjects ↔ p.IsAbout HasWord s := by
  unfold subjects
  constructor
  · intro h
    cases htext : p.formalExpression with
    | none => simp [htext] at h
    | some text =>
        cases hparse : Formula.parse text with
        | error => simp [htext, hparse] at h
        | ok f =>
            simp only [htext, Option.map_some, hparse] at h
            obtain ⟨os, hos⟩ := Formula.exists_readFrom hparse
            exact ⟨text, f, os, htext, hparse, hos, (Formula.mem_subjects hos).mp h⟩
  · rintro ⟨text, f, os, htext, hparse, hos, hfound⟩
    simp only [htext, Option.map_some, hparse]
    exact (Formula.mem_subjects hos).mpr hfound

theorem mem_lexemes_of_readFrom {text : String} {f : Formula} {os : List Occurrence}
    {o : Occurrence} {l : Lexeme} (h : f.ReadFrom text os) (ho : o ∈ os) (hl : l ∈ o.stretch) :
    ∃ read, tokenize text.toList = .ok read ∧ l ∈ read.lexemes := by
  obtain ⟨read, htokens, hoccurs⟩ := h
  obtain ⟨before, after, hlexemes, _⟩ := hoccurs.standsAmong o ho
  refine ⟨read, htokens, ?_⟩
  rw [hlexemes]
  exact List.mem_append_right _ (List.mem_append_left _ hl)

theorem not_hasName_nil {s : String} : ¬HasName [] s := by
  rintro ⟨_, before, after, heq, _⟩
  simp at heq

theorem hasName_cons {t : Token} {ts : List Token} {s : String} :
    HasName (t :: ts) s ↔
      (t = .name s ∧ ts.head? ≠ some .openParen ∧ 1 < s.length) ∨ HasName ts s := by
  constructor
  · rintro ⟨hlong, before, after, heq, happlied⟩
    cases before with
    | nil =>
        obtain ⟨rfl, rfl⟩ := List.cons.inj heq
        exact .inl ⟨rfl, happlied, hlong⟩
    | cons _ before =>
        obtain ⟨rfl, rfl⟩ := List.cons.inj heq
        exact .inr ⟨hlong, before, after, rfl, happlied⟩
  · rintro (⟨rfl, happlied, hlong⟩ | ⟨hlong, before, after, rfl, happlied⟩)
    · exact ⟨hlong, [], ts, rfl, happlied⟩
    · exact ⟨hlong, t :: before, after, rfl, happlied⟩

/-- Names that are words are found whole. -/
theorem hasWord_iff_hasName {ts : List Token}
    (h : ∀ name, .name name ∈ ts → IsName name ∧ Subject.IsPlain name) (s : String) :
    HasWord ts s ↔ HasName ts s := by
  induction ts with
  | nil => exact iff_of_false List.not_mem_nil not_hasName_nil
  | cons t ts ih =>
      have hrest := ih fun name hname => h name (List.mem_cons_of_mem t hname)
      rw [hasName_cons, ← hrest]
      cases t with
      | name text =>
          obtain ⟨hname, hplain⟩ := h text List.mem_cons_self
          simp only [HasWord, Subject.ofTokens, List.mem_append,
            Subject.mem_ofName_plain hname hplain, String.toList_inj, decide_eq_false_iff_not,
            Token.name.injEq]
          refine or_congr_left ?_
          constructor
          · rintro ⟨rfl, hother⟩
            exact ⟨rfl, hother⟩
          · rintro ⟨rfl, hother⟩
            exact ⟨rfl, hother⟩
      | _ => simp [HasWord, Subject.ofTokens]

theorem Proposition.IsPlain.isAbout_iff {p : Proposition} (h : p.IsPlain) (s : String) :
    p.IsAbout HasWord s ↔ p.IsAbout HasName s := by
  refine exists_congr fun text => exists_congr fun f => exists_congr fun os =>
    and_congr_right fun htext => and_congr_right fun hparse => and_congr_right fun hos =>
    exists_congr fun o => and_congr_right fun ho => hasWord_iff_hasName (fun name hname => ?_) s
  obtain ⟨l, hl, htoken⟩ := List.mem_map.mp hname
  obtain ⟨read, hlexemes, hmem⟩ := mem_lexemes_of_readFrom hos ho hl
  exact ⟨legible_of_lexemes hlexemes l hmem name htoken,
    h text read htext hlexemes l hmem name htoken⟩

/-! ## Expressions of one atom -/

open Grammar in
theorem Formula.parse_of_atom {text name : String} {read : Tokens}
    (h : tokenize text.toList = .ok read) (hatom : Atom (read.lexemes.map (·.token)) name)
    (hfits : Fits 0 (read.lexemes.map (·.token))) : Formula.parse text = .ok (.atom name) := by
  refine parse_eq_ok_iff_ofTokens.mpr ⟨read, h, ofTokens_eq_ok_iff.mpr ?_⟩
  exact ⟨(Derives.atom hatom).loosen (by decide), show 1 ≤ maxNesting by decide, hfits⟩

/-- What is found in an expression of one atom stands among the tokens of the atom's text. -/
theorem Proposition.isAbout_atom {p : Proposition} {text name : String} {read : Tokens}
    (htext : p.formalExpression = some text) (hparse : Formula.parse text = .ok (.atom name))
    (hlexemes : tokenize name.toList = .ok read) (found : List Token → String → Prop)
    (s : String) : p.IsAbout found s ↔ found (read.lexemes.map (·.token)) s := by
  have hone : ∀ os, (Formula.atom name).ReadFrom text os →
      ∃ o, os = [o] ∧ o.stretch.map (·.token) = read.lexemes.map (·.token) := by
    intro os hos
    have htexts : os.map (·.text) = [name] := by
      obtain ⟨_, _, hoccurs⟩ := hos
      exact hoccurs.texts
    obtain ⟨o, rfl, rfl⟩ := List.map_eq_singleton_iff.mp htexts
    obtain ⟨again, hagain, hmap⟩ := (hos.faithful hparse List.mem_cons_self).lexed
    cases hlexemes.symm.trans hagain
    exact ⟨o, rfl, hmap.symm⟩
  constructor
  · rintro ⟨_, _, os, htext', hparse', hos, o, ho, hfound⟩
    cases htext.symm.trans htext'
    cases hparse.symm.trans hparse'
    obtain ⟨o, rfl, hmap⟩ := hone os hos
    rw [List.mem_singleton.mp ho, hmap] at hfound
    exact hfound
  · intro hfound
    obtain ⟨os, hos⟩ := Formula.exists_readFrom hparse
    obtain ⟨o, rfl, hmap⟩ := hone os hos
    refine ⟨text, _, [o], htext, hparse, hos, o, List.mem_cons_self, ?_⟩
    rwa [hmap]

/-! ## The rule -/

namespace ArgumentGraph

variable {g : ArgumentGraph} {v u : Nat}

/-- A claim and another node that supports it are both about something, and about nothing in common.
What is found among the tokens of an atom is left open. -/
def Substitutes (g : ArgumentGraph) (found : List Token → String → Prop) (v u : Nat) : Prop :=
  ∃ p q, g.proposition? v = some p ∧ p.kind = .claim ∧ g.proposition? u = some q ∧ u ≠ v ∧
    (∃ e ∈ g.edges, e.source = u ∧ e.target = v ∧ e.kind = .supports) ∧
    (∃ s, p.IsAbout found s) ∧ (∃ s, q.IsAbout found s) ∧
    ∀ s, p.IsAbout found s → ¬q.IsAbout found s

theorem areUnrelated_iff {claim support : List String} :
    areUnrelated claim support = true ↔
      (∃ s, s ∈ claim) ∧ (∃ s, s ∈ support) ∧ ∀ s ∈ claim, s ∉ support := by
  simp [areUnrelated, List.eq_nil_iff_forall_not_mem, and_assoc]

/-- What a node is about is what its proposition is about. -/
theorem mem_subjects {s : String} :
    s ∈ g.subjects u ↔ ∃ q, g.proposition? u = some q ∧ q.IsAbout HasWord s := by
  unfold subjects
  cases g.proposition? u with
  | none => simp
  | some q => simp [Proposition.mem_subjects]

/-- Whatever the names are, the rule compares the words in them. -/
theorem mem_substitutions : (v, u) ∈ g.substitutions ↔ g.Substitutes HasWord v u := by
  have hflagged : (v, u) ∈ g.substitutions ↔ ∃ p, g.proposition? v = some p ∧ p.kind = .claim ∧
      u ∈ g.predecessors Edge.isSupport v ∧ areUnrelated p.subjects (g.subjects u) = true := by
    simp only [substitutions, List.mem_flatMap, List.mem_filter, List.mem_map, propositions,
      Prod.exists, List.mk_mem_zipIdx_iff_getElem?, Prod.mk.injEq, beq_iff_eq]
    constructor
    · rintro ⟨p, _, ⟨hp, hclaim⟩, _, ⟨hu, hunrelated⟩, rfl, rfl⟩
      exact ⟨p, hp, hclaim, hu, hunrelated⟩
    · rintro ⟨p, hp, hclaim, hu, hunrelated⟩
      exact ⟨p, v, ⟨hp, hclaim⟩, u, ⟨hu, hunrelated⟩, rfl, rfl⟩
  simp only [hflagged, mem_predecessors, areUnrelated_iff, Proposition.mem_subjects, mem_subjects,
    Edge.isSupport, beq_iff_eq]
  constructor
  · rintro ⟨p, hp, hclaim, ⟨hne, hedge⟩, hclaimed, ⟨s, q, hq, hs⟩, hapart⟩
    exact ⟨p, q, hp, hclaim, hq, hne, hedge, hclaimed, ⟨s, hs⟩,
      fun s hs hsame => hapart s hs ⟨q, hq, hsame⟩⟩
  · rintro ⟨p, q, hp, hclaim, hq, hne, hedge, hclaimed, ⟨s, hs⟩, hapart⟩
    refine ⟨p, hp, hclaim, ⟨hne, hedge⟩, hclaimed, ⟨s, q, hq, hs⟩, ?_⟩
    rintro s hs ⟨q', hq', hsame⟩
    cases hq.symm.trans hq'
    exact hapart s hs hsame

/-- Where the names in both expressions are words, the rule compares whole names, and never those of
predicates. -/
theorem mem_substitutions_names
    (hv : ∀ p, g.proposition? v = some p → p.IsPlain)
    (hu : ∀ q, g.proposition? u = some q → q.IsPlain) :
    (v, u) ∈ g.substitutions ↔ g.Substitutes HasName v u := by
  rw [mem_substitutions]
  refine exists_congr fun p => exists_congr fun q => and_congr_right fun hp =>
    and_congr_right fun _ => and_congr_right fun hq => ?_
  simp only [(hv p hp).isAbout_iff, (hu q hq).isAbout_iff]

/-- There is one bias for each substitution.  A claim is flagged for a node that supports it exactly
when the words in the names of both expressions are apart, none of them being the last word of a
predicate's name; and exactly when the names themselves are apart, those of predicates left out, if
all names are words. -/
theorem attributeSubstitution_spec (g : ArgumentGraph) :
    (∀ centrality, (g.attributeSubstitution centrality).map (·.affected) =
      g.substitutions.map fun (v, u) => g.ids [v, u]) ∧
    ∀ v u, ((v, u) ∈ g.substitutions ↔ g.Substitutes HasWord v u) ∧
      ((∀ p, g.proposition? v = some p → p.IsPlain) →
        (∀ q, g.proposition? u = some q → q.IsPlain) →
        ((v, u) ∈ g.substitutions ↔ g.Substitutes HasName v u)) := by
  refine ⟨fun centrality => ?_, fun v u => ⟨mem_substitutions, mem_substitutions_names⟩⟩
  rw [attributeSubstitution, List.map_map]
  show g.substitutions.zipIdx.map ((fun (v, u) => g.ids [v, u]) ∘ Prod.fst) = _
  rw [← List.map_map, List.zipIdx_map_fst]

/-- A claim and a piece of evidence that supports it. -/
def supportedClaim (claim evidence : String) : ArgumentGraph :=
  Argument.graph
    { propositions := [⟨⟨"c"⟩, "", some claim, .claim, .medium, false, false⟩,
        ⟨⟨"e"⟩, "", some evidence, .evidence, .medium, false, false⟩]
      relationships := [⟨⟨"r"⟩, ⟨"e"⟩, ⟨"c"⟩, .supports, .moderate, none⟩] }

section
variable {predicate name : String} {read : Tokens} {p : Proposition}
  (h : tokenize (predicate ++ "(" ++ name ++ ")").toList = .ok read)
  (htokens : read.lexemes.map (·.token) = [.name predicate, .openParen, .name name, .closeParen])
  (hp : p.formalExpression = some (predicate ++ "(" ++ name ++ ")"))
include h htokens hp

/-- What is found in the expression of a predicate and one name. -/
theorem isAbout_applied (found : List Token → String → Prop) (s : String) :
    p.IsAbout found s ↔ found [.name predicate, .openParen, .name name, .closeParen] s := by
  have hatom : Grammar.Atom [.name predicate, .openParen, .name name, .closeParen]
      (predicate ++ "(" ++ name ++ ")") :=
    .term (.applied predicate (.some (.last (.term (.name name) .nil) (List.cons_ne_nil _ _))))
  rw [← htokens] at hatom ⊢
  refine p.isAbout_atom hp (Formula.parse_of_atom h hatom ?_) h found s
  rw [htokens]
  simp [Grammar.fits_cons, Grammar.fits_nil, Grammar.openAfter, maxNesting]

theorem isAbout_hasName_applied (s : String) :
    p.IsAbout HasName s ↔ s = name ∧ 1 < s.length := by
  rw [isAbout_applied h htokens hp]
  simp [hasName_cons, not_hasName_nil, eq_comm]

theorem isPlain_applied (hpredicate : Subject.IsPlain predicate) (hname : Subject.IsPlain name) :
    p.IsPlain := by
  intro text again htext hagain l hl text' htoken
  cases hp.symm.trans htext
  cases h.symm.trans hagain
  have hmem : Token.name text' ∈ read.lexemes.map (·.token) := htoken ▸ List.mem_map_of_mem hl
  rw [htokens] at hmem
  simp only [List.mem_cons, Token.name.injEq, reduceCtorEq, List.not_mem_nil, or_false,
    false_or] at hmem
  rcases hmem with rfl | rfl
  · exact hpredicate
  · exact hname

end

/-- Evidence about another firm than the claim. -/
theorem attributeSubstitution_spec_applies :
    let g := supportedClaim "profitable(acme)" "well_funded(globex)"
    (∀ p, g.proposition? 0 = some p → p.IsPlain) ∧ (∀ q, g.proposition? 1 = some q → q.IsPlain) ∧
      (0, 1) ∈ g.substitutions := by
  intro g
  obtain ⟨_, hspec⟩ := attributeSubstitution_spec g
  have hclaim : ∀ p, g.proposition? 0 = some p → p.IsPlain ∧
      ∀ s, p.IsAbout HasName s ↔ s = "acme" ∧ 1 < s.length := by
    intro p hp
    cases hp
    have hlexemes : tokenize ("profitable" ++ "(" ++ "acme" ++ ")").toList =
        .ok ⟨[⟨.name "profitable", 0, 10⟩, ⟨.openParen, 10, 11⟩, ⟨.name "acme", 11, 15⟩,
          ⟨.closeParen, 15, 16⟩], 16⟩ := rfl
    exact ⟨isPlain_applied hlexemes rfl rfl (by decide) (by decide),
      isAbout_hasName_applied hlexemes rfl rfl⟩
  have hsupport : ∀ q, g.proposition? 1 = some q → q.IsPlain ∧
      ∀ s, q.IsAbout HasName s ↔ s = "globex" ∧ 1 < s.length := by
    intro q hq
    cases hq
    have hlexemes : tokenize ("well_funded" ++ "(" ++ "globex" ++ ")").toList =
        .ok ⟨[⟨.name "well_funded", 0, 11⟩, ⟨.openParen, 11, 12⟩, ⟨.name "globex", 12, 18⟩,
          ⟨.closeParen, 18, 19⟩], 19⟩ := rfl
    exact ⟨isPlain_applied hlexemes rfl rfl (by decide) (by decide),
      isAbout_hasName_applied hlexemes rfl rfl⟩
  have hplain := (hspec 0 1).2 (fun p hp => (hclaim p hp).1) (fun q hq => (hsupport q hq).1)
  refine ⟨fun p hp => (hclaim p hp).1, fun q hq => (hsupport q hq).1, hplain.mpr ?_⟩
  refine ⟨_, _, rfl, rfl, rfl, by decide, ⟨⟨1, 0, .supports, .moderate, 0⟩, ?_, rfl, rfl, rfl⟩, ?_⟩
  · decide +kernel
  · simp only [(hclaim _ rfl).2, (hsupport _ rfl).2]
    refine ⟨⟨"acme", rfl, by decide⟩, ⟨"globex", rfl, by decide⟩, ?_⟩
    rintro s ⟨rfl, _⟩ ⟨hsame, _⟩
    exact absurd hsame (by decide)

/-- A claim whose only name with more than one character is that of its predicate, which has a
hyphen: it is flagged, although there is no name that it is about. -/
theorem attributeSubstitution_hyphen :
    let g := supportedClaim "well-funded(x)" "profitable(acme)"
    (0, 1) ∈ g.substitutions ∧ ¬g.Substitutes HasName 0 1 := by
  intro g
  have hlexemes : tokenize ("well-funded" ++ "(" ++ "x" ++ ")").toList =
      .ok ⟨[⟨.name "well-funded", 0, 11⟩, ⟨.openParen, 11, 12⟩, ⟨.name "x", 12, 13⟩,
        ⟨.closeParen, 13, 14⟩], 14⟩ := rfl
  have hlexemes' : tokenize ("profitable" ++ "(" ++ "acme" ++ ")").toList =
      .ok ⟨[⟨.name "profitable", 0, 10⟩, ⟨.openParen, 10, 11⟩, ⟨.name "acme", 11, 15⟩,
        ⟨.closeParen, 15, 16⟩], 16⟩ := rfl
  have hclaim : ∀ found p, g.proposition? 0 = some p → ∀ s, p.IsAbout found s ↔
      found [.name "well-funded", .openParen, .name "x", .closeParen] s := by
    intro found p hp s
    cases hp
    exact isAbout_applied hlexemes rfl rfl found s
  have hsupport : ∀ found q, g.proposition? 1 = some q → ∀ s, q.IsAbout found s ↔
      found [.name "profitable", .openParen, .name "acme", .closeParen] s := by
    intro found q hq s
    cases hq
    exact isAbout_applied hlexemes' rfl rfl found s
  constructor
  · rw [mem_substitutions]
    refine ⟨_, _, rfl, rfl, rfl, by decide, ⟨⟨1, 0, .supports, .moderate, 0⟩, ?_, rfl, rfl, rfl⟩, ?_⟩
    · decide +kernel
    · have hwords : Subject.ofTokens [.name "well-funded", .openParen, .name "x", .closeParen] =
          ["well".toList] := by decide
      have hwords' : Subject.ofTokens [.name "profitable", .openParen, .name "acme", .closeParen] =
          ["acme".toList] := by decide
      simp only [hclaim _ _ rfl, hsupport _ _ rfl, HasWord, hwords, hwords', List.mem_singleton,
        String.toList_inj]
      refine ⟨⟨"well", rfl⟩, ⟨"acme", rfl⟩, ?_⟩
      rintro s rfl hsame
      exact absurd hsame (by decide)
  · rintro ⟨p, _, hp, _, _, _, _, ⟨s, hs⟩, _⟩
    cases hp
    obtain ⟨rfl, hlong⟩ := (isAbout_hasName_applied hlexemes rfl rfl s).mp hs
    exact absurd hlong (by decide)

end ArgumentGraph

end Elenchus
