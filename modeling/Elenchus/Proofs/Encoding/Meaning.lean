import Elenchus.Encoding
import Elenchus.Proofs.Argument.Validation
import Elenchus.Proofs.Clause.Limit

/-!
# What an encoding says

An argument is true under a valuation of the atoms and truth values of its propositions when every
usable expression is true and its proposition has the value of what it concludes, every other
proposition is true, and every relationship that is encoded is respected (`Argument.TrueUnder`). The
clauses of its encoding say just that (`Request.satisfies_encode_iff`), so they can be satisfied
exactly when some valuation of the atoms alone makes the argument true.

Which expressions are usable is said without a table: the text is read, and the counts of rows of
the formula and of the definition of its conclusion stay within the limit (`usableFormula`).

The proof follows the encoder.  Each proposition extends the table and states itself by clauses that
any later table reads the same way (`Proposition.encode_spec`); the propositions come one after
another (`encodePropositions_spec`), and the relationships speak of the first variables of the
table, which are those of the propositions.
-/

namespace Elenchus

/-! ## The meaning of an argument -/

/-- Whether a formula and the definition of its conclusion can be stated within the limit. -/
def Formula.Statable (f : Formula) : Prop :=
  f.rows ≤ maxClauses ∧ f.conclusion.definitionRows ≤ maxClauses

instance (f : Formula) : Decidable f.Statable := inferInstanceAs (Decidable (_ ∧ _))

/-- The formula of an expression that can be used, or why it cannot be used. -/
def usableFormula (text : String) : Except FormulaError Formula :=
  match Formula.parse text with
  | .error error => .error error
  | .ok f => if f.Statable then .ok f else .error Normal.tooLarge

namespace Proposition

/-- The formula of a proposition with an expression that can be used. -/
def usable? (p : Proposition) : Option Formula :=
  p.formalExpression.bind fun text => (usableFormula text).toOption

/-- Why the expression of a proposition cannot be used. -/
def failure? (p : Proposition) : Option FormulaError :=
  p.formalExpression.bind fun text =>
    match usableFormula text with
    | .error error => some error
    | .ok _ => none

/-- The truth value of a proposition under a valuation of the atoms: that of what it concludes, and
true if it has no usable expression. -/
def reading (p : Proposition) (value : String → Bool) : Bool :=
  match p.usable? with
  | some f => f.conclusion.eval value
  | none => true

/-- The expression of a proposition is true, if it can be used. -/
def Asserted (p : Proposition) (value : String → Bool) : Prop :=
  ∀ f, p.usable? = some f → f.eval value = true

end Proposition

/-- What a relationship that is encoded demands of the truth values of its endpoints. -/
def Relationship.Respected (r : Relationship) (options : EncodingOptions) (source target : Bool) :
    Prop :=
  match r.kind with
  | .supports => r.strength.atLeast options.minSupportStrength → source → target
  | .dependsOn | .assumes => source → target
  | .contradicts => ¬(source ∧ target)
  | .attacks => options.attackPolicy = .contradicts → ¬(source ∧ target)

/-- An argument is true under a valuation of the atoms and truth values of its propositions, given
by their positions. -/
structure Argument.TrueUnder (arg : Argument) (options : EncodingOptions) (value : String → Bool)
    (truth : Nat → Bool) : Prop where
  propositions : ∀ i p, arg.propositions[i]? = some p →
    p.Asserted value ∧ truth i = p.reading value
  relationships : ∀ r ∈ arg.relationships, ∃ i j, arg.indexOf? r.fromId = some i ∧
    arg.indexOf? r.toId = some j ∧ r.Respected options (truth i) (truth j)

/-! ## Propositions -/

/-- Clauses that every later table reads as the same statement on a valuation of the atoms and on
the assignment itself. -/
def VarTable.States (table : VarTable) (clauses : List Clause)
    (meaning : (String → Bool) → Assignment → Prop) : Prop :=
  ∀ later : VarTable, later.Distinct → table.Extends later → ∀ a value, later.Reads a value →
    (a.satisfies clauses ↔ meaning value a)

theorem Assignment.satisfies_append {a : Assignment} {clauses clauses' : List Clause} :
    a.satisfies (clauses ++ clauses') ↔ a.satisfies clauses ∧ a.satisfies clauses' :=
  List.forall_mem_append

theorem VarTable.States.mono {table later : VarTable} {clauses : List Clause}
    {meaning : (String → Bool) → Assignment → Prop} (h : table.States clauses meaning)
    (hextends : table.Extends later) : later.States clauses meaning :=
  fun last hlast h' => h last hlast (hextends.trans h')

theorem VarTable.States.append {table : VarTable} {clauses clauses' : List Clause}
    {meaning meaning' : (String → Bool) → Assignment → Prop} (h : table.States clauses meaning)
    (h' : table.States clauses' meaning') :
    table.States (clauses ++ clauses') fun value a => meaning value a ∧ meaning' value a := by
  intro later hlater hextends a value hreads
  rw [Assignment.satisfies_append, h later hlater hextends a value hreads,
    h' later hlater hextends a value hreads]

/-- A formula is stated exactly when it is statable, and then its clauses say that it is true and
that the variable has the value of its conclusion. -/
theorem Formula.state_spec (f : Formula) (v : Nat) {table : VarTable} (h : table.Distinct) :
    (f.state v table).2.Distinct ∧ table.Extends (f.state v table).2 ∧
      ((¬f.Statable ∧ (f.state v table).1 = .error Normal.tooLarge) ∨
        f.Statable ∧ ∃ lowered, (f.state v table).1 = .ok lowered ∧
          (f.state v table).2.States (lowered.body ++ lowered.link)
            fun value a => f.eval value = true ∧ a v = f.conclusion.eval value) := by
  have hfirst := f.lower_table true h
  change (f.clauses table).2.Distinct ∧ table.Extends (f.clauses table).2 at hfirst
  have hsecond := f.conclusion.definition_table v hfirst.1
  unfold state
  rcases f.clauses_cases table with ⟨hrows, body, hbody⟩ | ⟨hrows, hbody⟩
  · have hpair : f.clauses table = (.ok body, (f.clauses table).2) := Prod.ext hbody rfl
    rcases f.conclusion.definition_cases v (f.clauses table).2 with
      ⟨hlinkRows, link, hlink⟩ | ⟨hlinkRows, hlink⟩
    · have hlinkPair : f.conclusion.definition v (f.clauses table).2 =
          (.ok link, (f.conclusion.definition v (f.clauses table).2).2) := Prod.ext hlink rfl
      rw [hpair]
      dsimp only
      rw [hlinkPair]
      refine ⟨hsecond.1, hfirst.2.trans hsecond.2, .inr ⟨⟨hrows, hlinkRows⟩, _, rfl, ?_⟩⟩
      intro later hlater hextends a value hreads
      rw [Assignment.satisfies_append,
        f.satisfies_of_clauses ((hsecond.2.trans hextends).keeps hlater) hreads hbody,
        f.conclusion.satisfies_of_definition v (hextends.keeps hlater) hreads hlink]
    · have hlinkPair : f.conclusion.definition v (f.clauses table).2 =
          (.error Normal.tooLarge, (f.conclusion.definition v (f.clauses table).2).2) :=
        Prod.ext hlink rfl
      rw [hpair]
      dsimp only
      rw [hlinkPair]
      refine ⟨hsecond.1, hfirst.2.trans hsecond.2, .inl ⟨fun hstatable => ?_, rfl⟩⟩
      exact Nat.not_le_of_lt hlinkRows hstatable.2
  · have hpair : f.clauses table = (.error Normal.tooLarge, (f.clauses table).2) :=
      Prod.ext hbody rfl
    rw [hpair]
    exact ⟨hfirst.1, hfirst.2, .inl ⟨fun hstatable => Nat.not_le_of_lt hrows hstatable.1, rfl⟩⟩

theorem stateExpression_spec (text : String) (v : Nat) {table : VarTable} (h : table.Distinct) :
    (stateExpression text v table).2.Distinct ∧ table.Extends (stateExpression text v table).2 ∧
      match usableFormula text with
      | .error error => (stateExpression text v table).1 = .error error
      | .ok f => ∃ lowered, (stateExpression text v table).1 = .ok lowered ∧
          (stateExpression text v table).2.States (lowered.body ++ lowered.link)
            fun value a => f.eval value = true ∧ a v = f.conclusion.eval value := by
  unfold stateExpression usableFormula
  cases Formula.parse text with
  | error error => exact ⟨h, .refl table, rfl⟩
  | ok f =>
      obtain ⟨hdistinct, hextends, hcases⟩ := f.state_spec v h
      refine ⟨hdistinct, hextends, ?_⟩
      dsimp only
      rcases hcases with ⟨hstatable, herror⟩ | ⟨hstatable, hok⟩
      · rw [if_neg hstatable]
        exact herror
      · rw [if_pos hstatable]
        exact hok

/-- A unit clause states that its variable is true. -/
theorem Proposition.states_assertion (p : Proposition) (i : Nat) (table : VarTable) :
    table.States [(p.assertion i).clause] fun _ a => a i = true := by
  intro later _ _ a value _
  rw [Assignment.satisfies, List.forall_mem_singleton, assertion, Normal.holds_ofList]
  simp [Literal.holds]

/-- A proposition extends the table, and its clauses say that its expression is true and that its
variable has its value. -/
theorem Proposition.encode_spec (p : Proposition) (i : Nat) {table : VarTable}
    (h : table.Distinct) :
    (p.encode i table).table.Distinct ∧ table.Extends (p.encode i table).table ∧
      (p.encode i table).failure = p.failure? ∧
      (p.encode i table).table.States ((p.encode i table).clauses.map (·.clause))
        fun value a => p.Asserted value ∧ a i = p.reading value := by
  -- Without a usable formula the proposition is true, and nothing else is said.
  have hplain : p.usable? = none → ∀ later : VarTable,
      later.States ([p.assertion i].map (·.clause))
        fun value a => p.Asserted value ∧ a i = p.reading value := by
    intro hnone later last hlast hextends a value hreads
    rw [List.map_singleton, p.states_assertion i later last hlast hextends a value hreads]
    simp only [Asserted, reading, hnone, reduceCtorEq, false_implies, implies_true, true_and]
  unfold encode
  cases hexpression : p.formalExpression with
  | none =>
      have hnone : p.usable? = none := by rw [usable?, hexpression]; rfl
      exact ⟨h, .refl table, by rw [failure?, hexpression]; rfl, hplain hnone _⟩
  | some text =>
      obtain ⟨hdistinct, hextends, hcases⟩ := stateExpression_spec text i h
      dsimp only
      cases husable : usableFormula text with
      | error error =>
          rw [husable] at hcases
          have hpair : stateExpression text i table =
              (.error error, (stateExpression text i table).2) := Prod.ext hcases rfl
          have hnone : p.usable? = none := by
            rw [usable?, hexpression, Option.bind_some, husable]
            rfl
          rw [hpair]
          refine ⟨hdistinct, hextends, ?_, hplain hnone _⟩
          rw [failure?, hexpression, Option.bind_some, husable]
      | ok f =>
          rw [husable] at hcases
          obtain ⟨lowered, hok, hstates⟩ := hcases
          have hpair : stateExpression text i table =
              (.ok lowered, (stateExpression text i table).2) := Prod.ext hok rfl
          have hsome : p.usable? = some f := by
            rw [usable?, hexpression, Option.bind_some, husable]
            rfl
          rw [hpair]
          refine ⟨hdistinct, hextends, ?_, ?_⟩
          · rw [failure?, hexpression, Option.bind_some, husable]
          · intro later hlater hextends' a value hreads
            rw [List.map_append, List.map_map, List.map_map]
            change a.satisfies (lowered.body.map (fun c => c) ++ lowered.link.map (fun c => c)) ↔ _
            rw [List.map_id', List.map_id', hstates later hlater hextends' a value hreads]
            simp only [Asserted, reading, hsome, Option.some.injEq, forall_eq']

/-- The propositions from a position on extend the table, and each of them says what it says by
itself. -/
theorem encodePropositions_spec (ps : List Proposition) (position : Nat) {table : VarTable}
    (h : table.Distinct) :
    (encodePropositions position table ps).2.2.Distinct ∧
      table.Extends (encodePropositions position table ps).2.2 ∧
      (encodePropositions position table ps).2.1 =
        (ps.zipIdx position).filterMap (fun (p, i) => p.failure?.map (i, ·)) ∧
      (encodePropositions position table ps).2.2.States
        ((encodePropositions position table ps).1.map (·.clause))
        fun value a => ∀ i p, ps[i]? = some p →
          p.Asserted value ∧ a (position + i) = p.reading value := by
  induction ps generalizing position table with
  | nil =>
      refine ⟨h, .refl table, rfl, fun later _ _ a value _ => ?_⟩
      exact iff_of_true (List.forall_mem_nil _) (fun i p hp => by simp at hp)
  | cons p ps ih =>
      obtain ⟨hone, hextends, hfailure, hstates⟩ := p.encode_spec position h
      obtain ⟨hrest, hextends', hfailures, hstates'⟩ := ih (position + 1) hone
      refine ⟨hrest, hextends.trans hextends', ?_, ?_⟩
      · change (p.encode position table).failure.toList.map _ ++ _ = _
        rw [hfailure, List.zipIdx_cons, hfailures]
        cases hp : p.failure? with
        | none => simp [hp]
        | some error => simp [hp]
      · intro later hlater hlast a value hreads
        have hboth := (hstates.mono hextends').append hstates' later hlater hlast a value hreads
        change a.satisfies (((p.encode position table).clauses ++ _).map _) ↔ _
        rw [List.map_append, hboth]
        have hshift : ∀ i, position + (i + 1) = position + 1 + i := fun i => by omega
        constructor
        · rintro ⟨hfirst, hothers⟩ i q hq
          cases i with
          | zero =>
              cases hq
              exact hfirst
          | succ i =>
              rw [hshift]
              exact hothers i q hq
        · intro hall
          refine ⟨hall 0 p rfl, fun i q hq => ?_⟩
          rw [← hshift]
          exact hall (i + 1) q hq

/-! ## Relationships -/

/-- The clause of a relationship says that it is respected; one without a clause says nothing. -/
theorem Relationship.respected_iff (r : Relationship) (options : EncodingOptions) (i j : Nat)
    (a : Assignment) :
    r.Respected options (a i) (a j) ↔ ∀ c, r.clause? options i j = some c → c.holds a = true := by
  have himplies : (a i → a j) ↔ (Clause.ofList [⟨i, false⟩, ⟨j, true⟩]).holds a = true := by
    rw [Normal.holds_ofList]
    cases hi : a i <;> cases hj : a j <;> simp [Literal.holds, hi, hj]
  have hexcludes : ¬(a i ∧ a j) ↔ (Clause.ofList [⟨i, false⟩, ⟨j, false⟩]).holds a = true := by
    rw [Normal.holds_ofList]
    cases hi : a i <;> cases hj : a j <;> simp [Literal.holds, hi, hj]
  unfold Respected clause?
  cases r.kind with
  | supports =>
      cases hstrength : r.strength.atLeast options.minSupportStrength with
      | false => simp
      | true => simpa using himplies
  | dependsOn => simpa using himplies
  | assumes => simpa using himplies
  | contradicts => simpa using hexcludes
  | attacks =>
      cases options.attackPolicy with
      | inert => simp
      | contradicts => simpa using hexcludes

/-- What is encoded of a relationship between two propositions says that it is respected. -/
theorem Relationship.encode_spec (r : Relationship) {arg : Argument} (options : EncodingOptions)
    (position : Nat) {i j : Nat} (hsource : arg.indexOf? r.fromId = some i)
    (htarget : arg.indexOf? r.toId = some j) (a : Assignment) :
    (∀ c, r.encode arg options position = some c → c.clause.holds a = true) ↔
      r.Respected options (a i) (a j) := by
  rw [r.respected_iff options i j a]
  simp only [encode, hsource, htarget, Option.bind_eq_bind, Option.bind_some]
  cases r.clause? options i j with
  | none => simp
  | some c =>
      simp only [Option.bind_some, Option.some.injEq, forall_eq']
      split
      next htautology => simpa using Normal.holds_of_isTautology a htautology
      next => simp

/-- The clauses of the relationships say that each of them is respected. -/
theorem Argument.satisfies_relationships {arg : Argument} (options : EncodingOptions)
    (hjoined : ∀ r ∈ arg.relationships, r.fromId ∈ arg.ids ∧ r.toId ∈ arg.ids) (a : Assignment) :
    a.satisfies ((arg.relationships.zipIdx.filterMap fun (r, i) => r.encode arg options i).map
      (·.clause)) ↔
      ∀ r ∈ arg.relationships, ∃ i j, arg.indexOf? r.fromId = some i ∧
        arg.indexOf? r.toId = some j ∧ r.Respected options (a i) (a j) := by
  constructor
  · intro hall r hr
    obtain ⟨hfrom, hto⟩ := hjoined r hr
    obtain ⟨i, hi⟩ := exists_indexOf? hfrom
    obtain ⟨j, hj⟩ := exists_indexOf? hto
    obtain ⟨position, hposition⟩ := List.getElem?_of_mem hr
    refine ⟨i, j, hi, hj, (r.encode_spec options position hi hj a).mp fun c hc => ?_⟩
    refine hall c.clause (List.mem_map.mpr ⟨c, List.mem_filterMap.mpr ⟨(r, position), ?_, hc⟩, rfl⟩)
    exact List.mk_mem_zipIdx_iff_getElem?.mpr hposition
  · intro hall c hc
    obtain ⟨tagged, htagged, rfl⟩ := List.mem_map.mp hc
    obtain ⟨⟨r, position⟩, hr, htagged⟩ := List.mem_filterMap.mp htagged
    obtain ⟨i, j, hi, hj, hrespected⟩ := hall r (List.fst_mem_of_mem_zipIdx hr)
    exact (r.encode_spec options position hi hj a).mpr hrespected tagged htagged

/-! ## Arguments -/

/-- The table that an encoding starts from: the propositions have the first variables. -/
def Argument.minted (arg : Argument) : VarTable :=
  VarTable.empty.internAll (arg.propositions.map fun p => .proposition p.id)

theorem Argument.minted_spec {arg : Argument} (h : arg.ids.Nodup) :
    arg.minted.Distinct ∧ ∀ i p, arg.propositions[i]? = some p →
      arg.minted.name? i = some (.proposition p.id) := by
  have hnodup : (arg.propositions.map fun p => VarName.proposition p.id).Nodup := by
    refine List.pairwise_map.mpr ((List.pairwise_map.mp h).imp fun hne heq => hne ?_)
    exact VarName.proposition.inj heq
  have hnames : arg.minted.names.toList = arg.propositions.map fun p => .proposition p.id :=
    VarTable.names_internAll (by simpa [VarTable.empty] using hnodup)
  refine ⟨by rw [VarTable.Distinct, hnames]; exact hnodup, fun i p hp => ?_⟩
  rw [VarTable.name?, ← Array.getElem?_toList, hnames, List.getElem?_map, hp]
  rfl

/-- The table of an encoding names the propositions first. -/
theorem Argument.table_encode {arg : Argument} (h : arg.ids.Nodup) (options : EncodingOptions) :
    (arg.encode options).table.Distinct ∧ ∀ i p, arg.propositions[i]? = some p →
      (arg.encode options).table.name? i = some (.proposition p.id) := by
  obtain ⟨hminted, hnames⟩ := minted_spec h
  obtain ⟨hdistinct, hextends, _⟩ := encodePropositions_spec arg.propositions 0 hminted
  exact ⟨hdistinct, fun i p hp => hextends i _ (hnames i p hp)⟩

/-- An encoding has one table that names the propositions first, says what the propositions and the
relationships say under any reading of the atoms in that table, and lists the failures. -/
theorem Request.encode_reads (r : Request) (options : EncodingOptions) :
    let arg := r.validate.1
    let e := arg.encode options
    e.table.Distinct ∧
      (∀ i p, arg.propositions[i]? = some p → e.table.name? i = some (.proposition p.id)) ∧
      (∀ a value, e.table.Reads a value →
        (a.satisfies (e.clauses.map (·.clause)) ↔ arg.TrueUnder options value a)) ∧
      e.failures = arg.propositions.zipIdx.filterMap (fun (p, i) => p.failure?.map (i, ·)) := by
  intro arg e
  obtain ⟨hdistinct, hnames⟩ := Argument.table_encode r.nodup_ids options
  obtain ⟨_, _, hfailures, hstates⟩ :=
    encodePropositions_spec arg.propositions 0 (Argument.minted_spec r.nodup_ids).1
  refine ⟨hdistinct, hnames, ?_, hfailures⟩
  intro a value hreads
  have hpropositions := hstates _ hdistinct (.refl _) a value hreads
  have hrelationships := Argument.satisfies_relationships options
    (fun _ h => r.mem_ids_of_relationship h) a
  change a.satisfies (List.map _ (_ ++ _)) ↔ _
  rw [List.map_append, Assignment.satisfies_append]
  simp only [Nat.zero_add] at hpropositions
  exact ⟨fun h => ⟨hpropositions.mp h.1, hrelationships.mp h.2⟩,
    fun h => ⟨hpropositions.mpr h.propositions, hrelationships.mpr h.relationships⟩⟩

/-- The truth values that a valuation of the atoms gives the propositions. -/
def Argument.readings (arg : Argument) (value : String → Bool) (i : Nat) : Bool :=
  (arg.propositions[i]?).elim true (·.reading value)

/-- Only the truth values at the positions of propositions matter. -/
theorem Argument.TrueUnder.congr {arg : Argument} {options : EncodingOptions}
    {value : String → Bool} {truth truth' : Nat → Bool} (h : arg.TrueUnder options value truth)
    (hagree : ∀ i p, arg.propositions[i]? = some p → truth' i = truth i) :
    arg.TrueUnder options value truth' := by
  have hindex : ∀ {id i}, arg.indexOf? id = some i → truth' i = truth i := fun hi =>
    hagree _ _ (List.getElem?_eq_getElem (Argument.lt_size_of_indexOf? hi))
  refine ⟨fun i p hp => ?_, fun r hr => ?_⟩
  · rw [hagree i p hp]
    exact h.propositions i p hp
  · obtain ⟨i, j, hi, hj, hrespected⟩ := h.relationships r hr
    exact ⟨i, j, hi, hj, by rw [hindex hi, hindex hj]; exact hrespected⟩

/-- The assignment that a valuation of the atoms gives: each atom in the table has its value, and
each proposition what it has under the valuation. -/
def Argument.assign (arg : Argument) (table : VarTable) (value : String → Bool) : Assignment :=
  fun v =>
    match table.name? v with
    | some (.atom text) => value text
    | _ => arg.readings value v

/-- The encoding of a validated argument is true under an assignment exactly when the argument is
true under the values that the assignment gives.  So it can be satisfied exactly when some valuation
of the atoms makes the argument true, each proposition having the value of its conclusion.  The
failures are those of the expressions that cannot be used. -/
theorem Request.satisfies_encode_iff (r : Request) (options : EncodingOptions) :
    let arg := r.validate.1
    let e := arg.encode options
    (∀ a : Assignment, a.satisfies (e.clauses.map (·.clause)) ↔
      arg.TrueUnder options (e.table.atomValue a) a) ∧
    ((∃ a : Assignment, a.satisfies (e.clauses.map (·.clause))) ↔
      ∃ value : String → Bool, arg.TrueUnder options value (arg.readings value)) ∧
    e.failures = arg.propositions.zipIdx.filterMap fun (p, i) => p.failure?.map (i, ·) := by
  intro arg e
  obtain ⟨hdistinct, hnames, hreads, hfailures⟩ := r.encode_reads options
  have hmeans : ∀ a : Assignment, a.satisfies (e.clauses.map (·.clause)) ↔
      arg.TrueUnder options (e.table.atomValue a) a :=
    fun a => hreads a _ (e.table.reads_atomValue a)
  refine ⟨hmeans, ⟨?_, ?_⟩, hfailures⟩
  · rintro ⟨a, ha⟩
    have htrue := (hmeans a).mp ha
    refine ⟨e.table.atomValue a, htrue.congr fun i p hp => ?_⟩
    rw [(htrue.propositions i p hp).2, Argument.readings, hp]
    rfl
  · rintro ⟨value, hvalue⟩
    have hreading : e.table.Reads (arg.assign e.table value) value := by
      intro text v hfind
      rw [Argument.assign, VarTable.name?_of_find? hfind]
    refine ⟨arg.assign e.table value, (hreads _ value hreading).mpr (hvalue.congr fun i p hp => ?_)⟩
    rw [Argument.assign, hnames i p hp]

end Elenchus
