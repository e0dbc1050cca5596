import SmallC.Proofs.Condition.Grammar

/-!
# Reading follows the grammar

The reader of conditions is generic in what it builds. This file shows that over any
algebra it takes exactly the spellings of grammatical expressions, and that it builds
what the algebra makes of the expression from the bottom up. Soundness goes by the
length of the tokens, completeness by the derivation in the grammar.
-/

namespace SmallC.Condition

/-- The operator that a sign is before an operand is the one spelled by the sign. -/
theorem UnaryOperator.ofPunctuator?_eq_some_iff {p : Punctuator} {op : UnaryOperator} :
    ofPunctuator? p = some op ↔ p = op.punctuator := by
  constructor
  · intro h
    cases p <;> simp only [ofPunctuator?, Option.some.injEq, reduceCtorEq] at h <;> subst h <;> rfl
  · rintro rfl
    cases op <;> rfl

namespace BinaryOperator

/-- The operator that a sign is between two operands is the one spelled by the sign. -/
theorem ofPunctuator?_eq_some_iff {p : Punctuator} {op : BinaryOperator} :
    ofPunctuator? p = some op ↔ p = op.punctuator := by
  constructor
  · intro h
    cases p <;> simp only [ofPunctuator?, Option.some.injEq, reduceCtorEq] at h <;> subst h <;> rfl
  · rintro rfl
    cases op <;> rfl

/-- The operators are listed by their levels. -/
theorem level_of_mem_precedence :
    ∀ i : Fin precedence.length, ∀ op ∈ precedence[i], op.level = i := by decide

/-- The level of an operator is the number of its row. -/
theorem exists_row_iff {k : Nat} {op : BinaryOperator} :
    (∃ row, precedence[k]? = some row ∧ op ∈ row) ↔ op.level = k := by
  constructor
  · rintro ⟨row, hrow, hop⟩
    obtain ⟨hk, rfl⟩ := List.getElem?_eq_some_iff.mp hrow
    exact level_of_mem_precedence ⟨k, hk⟩ op hop
  · rintro rfl
    cases op <;> exact ⟨_, rfl, by decide⟩

/-- There are ten levels of operators between two operands. -/
theorem level_lt (op : BinaryOperator) : op.level < 10 := by cases op <;> decide

end BinaryOperator

/-- A text starts with an operator exactly if its first token is the sign of one. -/
theorem binaryOperator?_eq_some_iff {ts rest : List DirectiveToken} {op : BinaryOperator} :
    binaryOperator? ts = some (op, rest) ↔ ts = .punctuator op.punctuator :: rest := by
  constructor
  · intro h
    unfold binaryOperator? at h
    split at h
    · obtain ⟨op', hop, h⟩ := Option.map_eq_some_iff.mp h
      obtain ⟨rfl, rfl⟩ := Prod.mk.inj h
      rw [BinaryOperator.ofPunctuator?_eq_some_iff.mp hop]
    · cases h
  · rintro rfl
    simp [binaryOperator?, BinaryOperator.ofPunctuator?_eq_some_iff.mpr rfl]

/-- A punctuator that is there is taken. -/
@[simp] theorem after?_cons_self (p : Punctuator) (rest : List DirectiveToken) :
    after? p (.punctuator p :: rest) = some rest := by
  simp [after?]

variable {α : Type}

/-- What an algebra makes of an expression, from the left to the right and from the
bottom up. -/
def Expression.fold (a : Algebra α) : Expression → Except Fault α
  | .number text => a.number text
  | .identifier name => .ok (a.name name)
  | .isDefined _ name => .ok (a.isDefined name)
  | .parentheses inner => inner.fold a
  | .unary op operand =>
    match operand.fold a with
    | .error e => .error e
    | .ok x => .ok (a.unary op x)
  | .binary op left right =>
    match left.fold a, right.fold a with
    | .ok x, .ok y => a.binary op x y
    | .error e, _ => .error e
    | _, .error e => .error e
  | .choice condition yes no =>
    match condition.fold a, yes.fold a, no.fold a with
    | .ok c, .ok x, .ok y => .ok (a.choice c x y)
    | .error e, _, _ => .error e
    | _, .error e, _ => .error e
    | _, _, .error e => .error e

/-- The value of an operator before an operand comes from the value of the operand. -/
theorem Expression.fold_unary_eq_ok_iff {a : Algebra α} {op : UnaryOperator}
    {operand : Expression} {v : α} :
    (Expression.unary op operand).fold a = .ok v ↔
      ∃ x, operand.fold a = .ok x ∧ a.unary op x = v := by
  rw [fold]
  cases operand.fold a <;> simp

/-- The value of an operator comes from the values of both operands, each of which has to have
one. -/
theorem Expression.fold_binary_eq_ok_iff {a : Algebra α} {op : BinaryOperator}
    {left right : Expression} {v : α} :
    (Expression.binary op left right).fold a = .ok v ↔
      ∃ x y, left.fold a = .ok x ∧ right.fold a = .ok y ∧ a.binary op x y = .ok v := by
  rw [fold]
  cases left.fold a <;> cases right.fold a <;> simp

/-- The value of a choice comes from the values of all three operands. -/
theorem Expression.fold_choice_eq_ok_iff {a : Algebra α} {condition yes no : Expression} {v : α} :
    (Expression.choice condition yes no).fold a = .ok v ↔
      ∃ c x y, condition.fold a = .ok c ∧ yes.fold a = .ok x ∧ no.fold a = .ok y ∧
        a.choice c x y = v := by
  rw [fold]
  cases condition.fold a <;> cases yes.fold a <;> cases no.fold a <;> simp

/-- The tokens start with a grammatical expression of level `k` of which the algebra
makes `v`, and `rest` follows it. -/
def Derives (a : Algebra α) (k : Nat) (ts : List DirectiveToken) (v : α)
    (rest : List DirectiveToken) : Prop :=
  ∃ e : Expression, e.Grammatical k ∧ ts = e.spelling ++ rest ∧ e.fold a = .ok v

/-- Among fewer than `n` tokens, whatever is read as an expression is one. -/
def SoundBelow (a : Algebra α) (n : Nat) : Prop :=
  ∀ ts : List DirectiveToken, ts.length < n → ∀ p, expression a ts = .ok p →
    Derives a 11 ts p.value p.rest

/-- What follows `defined` is a name, in parentheses or not, and is read as one operand. -/
theorem definedName_sound {a : Algebra α} {ts : List DirectiveToken} {p : Parsed α ts.length}
    (h : definedName a ts = .ok p) :
    Derives a 0 (.identifier "defined" :: ts) p.value p.rest := by
  unfold definedName at h
  split at h
  · rename_i name rest
    obtain rfl := Except.ok.inj h
    exact ⟨.isDefined false name, .isDefined _ _, rfl, rfl⟩
  · rename_i name rest
    split at h
    · rename_i rest' hparen
      obtain rfl := Except.ok.inj h
      obtain rfl := eq_of_after?_eq_some hparen
      exact ⟨.isDefined true name, .isDefined _ _, rfl, rfl⟩
    · cases h
  · cases h

/-- What is read as an operand is one, provided that this holds of the expressions
in its parentheses. -/
theorem operand_sound {a : Algebra α} {n : Nat} (hbelow : SoundBelow a n)
    {ts : List DirectiveToken} (hn : ts.length ≤ n) {p : Parsed α ts.length}
    (h : operand a ts = .ok p) : Derives a 0 ts p.value p.rest := by
  induction ts with
  | nil => simp [operand] at h
  | cons t rest ih =>
    rw [List.length_cons] at hn
    cases t with
    | number text =>
      rw [operand] at h
      split at h
      · cases h
      · rename_i value hvalue
        obtain rfl := Except.ok.inj h
        exact ⟨.number text, .number _, rfl, hvalue⟩
    | identifier name =>
      rw [operand] at h
      split at h
      · rename_i hname
        subst hname
        split at h
        · cases h
        · rename_i inner hinner
          obtain rfl := Except.ok.inj h
          exact definedName_sound hinner
      · rename_i hname
        obtain rfl := Except.ok.inj h
        exact ⟨.identifier name, .identifier hname, rfl, rfl⟩
    | punctuator sign =>
      rw [operand] at h
      split at h
      · rename_i op hop
        split at h
        · cases h
        · rename_i inner hinner
          obtain rfl := Except.ok.inj h
          obtain ⟨e, he, hspelling, hfold⟩ := ih (by omega) hinner
          have hunary : (Expression.unary op e).fold a = .ok _ :=
            Expression.fold_unary_eq_ok_iff.mpr ⟨_, hfold, rfl⟩
          refine ⟨.unary op e, .unary op he, ?_, hunary⟩
          rw [UnaryOperator.ofPunctuator?_eq_some_iff.mp hop]
          exact congrArg _ hspelling
      · split at h
        · rename_i hsign
          subst hsign
          split at h
          · cases h
          · rename_i inner hinner
            split at h
            · rename_i rest' hparen
              obtain rfl := Except.ok.inj h
              obtain ⟨e, he, hspelling, hfold⟩ := hbelow rest (by omega) inner hinner
              refine ⟨.parentheses e, .parentheses he, ?_, hfold⟩
              rw [eq_of_after?_eq_some hparen] at hspelling
              simp [Expression.spelling, hspelling]
            · cases h
        · cases h
    | quoted text => simp [operand] at h
    | other c => simp [operand] at h

/-- The operators of one level and their operands go on with an expression that was
read before them, provided that the operands are read as they should be. -/
theorem operations_sound {a : Algebra α} {k n : Nat}
    (hoperand : ∀ us : List DirectiveToken, us.length < n → ∀ p, operation a k us = .ok p →
      Derives a k us p.value p.rest)
    {left : α} {ts : List DirectiveToken} {bound : Nat} {hts : ts.length < bound}
    (hn : ts.length ≤ n) {p : Parsed α bound} (h : operations a k left ts bound hts = .ok p)
    {e : Expression} (he : e.Grammatical (k + 1)) (hleft : e.fold a = .ok left) :
    ∃ e' : Expression, e'.Grammatical (k + 1) ∧ e.spelling ++ ts = e'.spelling ++ p.rest ∧
      e'.fold a = .ok p.value := by
  induction hlength : ts.length using Nat.strongRecOn generalizing ts left e with
  | ind m ih =>
    rw [operations] at h
    split at h
    · obtain rfl := Except.ok.inj h
      exact ⟨e, he, rfl, hleft⟩
    · rename_i op rest hop
      obtain rfl := binaryOperator?_eq_some_iff.mp hop
      rw [List.length_cons] at hn hlength
      split at h
      · rename_i hlevel
        split at h
        · cases h
        · rename_i right hright
          split at h
          · cases h
          · rename_i value hvalue
            obtain ⟨r, hr, hspelling, hfold⟩ := hoperand rest (by omega) right hright
            obtain ⟨row, hrow, hmem⟩ := BinaryOperator.exists_row_iff.mpr hlevel
            have hshorter := right.shorter
            obtain ⟨e', he', hspelling', hfold'⟩ := ih right.rest.length (by omega) (by omega) h
              (.binary hrow hmem he hr)
              (Expression.fold_binary_eq_ok_iff.mpr ⟨_, _, hleft, hfold, hvalue⟩) rfl
            refine ⟨e', he', ?_, hfold'⟩
            calc e.spelling ++ .punctuator op.punctuator :: rest
              _ = e.spelling ++ .punctuator op.punctuator :: (r.spelling ++ right.rest) :=
                congrArg (fun us => e.spelling ++ .punctuator op.punctuator :: us) hspelling
              _ = (Expression.binary op e r).spelling ++ right.rest := by simp [Expression.spelling]
              _ = e'.spelling ++ p.rest := hspelling'
      · obtain rfl := Except.ok.inj h
        exact ⟨e, he, rfl, hleft⟩

/-- What is read with operators of the first `k` rows is an expression of level `k`. -/
theorem operation_sound {a : Algebra α} {n k : Nat} (hbelow : SoundBelow a n) (hk : k ≤ 10)
    {ts : List DirectiveToken} (hn : ts.length ≤ n) {p : Parsed α ts.length}
    (h : operation a k ts = .ok p) : Derives a k ts p.value p.rest := by
  induction k generalizing ts with
  | zero =>
    rw [operation] at h
    exact operand_sound hbelow hn h
  | succ k ih =>
    rw [operation] at h
    split at h
    · cases h
    · rename_i left hleft
      have hshorter := left.shorter
      obtain ⟨e, he, hspelling, hfold⟩ := ih (by omega) hn hleft
      obtain ⟨e', he', hspelling', hfold'⟩ := operations_sound (n := left.rest.length)
        (fun us hus q hq => ih (by omega) (by omega) hq) (Nat.le_refl _) h (.raise (by omega) he)
        hfold
      exact ⟨e', he', hspelling.trans hspelling', hfold'⟩

/-- What is read as an expression is one, whatever the number of tokens. -/
theorem soundBelow (a : Algebra α) (n : Nat) : SoundBelow a n := by
  induction n with
  | zero => intro ts hts; omega
  | succ n hbelow =>
    intro ts hts p h
    rw [expression] at h
    split at h
    · cases h
    · rename_i condition hcondition
      obtain ⟨c, hc, hspelling, hfold⟩ := operation_sound hbelow (by omega) (by omega) hcondition
      have hshorter := condition.shorter
      split at h
      · obtain rfl := Except.ok.inj h
        exact ⟨c, .raise (by omega) hc, hspelling, hfold⟩
      · rename_i rest hquestion
        have hrest := length_of_after? hquestion
        split at h
        · cases h
        · rename_i yes hyes
          obtain ⟨y, hy, hspellingYes, hfoldYes⟩ := hbelow rest (by omega) yes hyes
          have hshorterYes := yes.shorter
          split at h
          · cases h
          · rename_i rest' hcolon
            have hrest' := length_of_after? hcolon
            split at h
            · cases h
            · rename_i no hno
              obtain ⟨z, hz, hspellingNo, hfoldNo⟩ := hbelow rest' (by omega) no hno
              obtain rfl := Except.ok.inj h
              refine ⟨.choice c y z, .choice hc hy hz, ?_,
                Expression.fold_choice_eq_ok_iff.mpr ⟨_, _, _, hfold, hfoldYes, hfoldNo, rfl⟩⟩
              calc ts
                _ = c.spelling ++ condition.rest := hspelling
                _ = c.spelling ++ .punctuator .question ::
                    (y.spelling ++ .punctuator .colon :: (z.spelling ++ no.rest)) := by
                  rw [← hspellingNo, ← eq_of_after?_eq_some hcolon, ← hspellingYes,
                    eq_of_after?_eq_some hquestion]
                _ = (Expression.choice c y z).spelling ++ no.rest := by simp [Expression.spelling]

/-- No operator of the first `k` rows starts the tokens. -/
def Stops (k : Nat) (ts : List DirectiveToken) : Prop :=
  ∀ op rest, ts = .punctuator (BinaryOperator.punctuator op) :: rest → k ≤ op.level

/-- A list at which a loose operator may stop is one at which a tighter one may. -/
theorem Stops.mono {j k : Nat} {ts : List DirectiveToken} (h : Stops k ts) (hjk : j ≤ k) :
    Stops j ts :=
  fun op rest hts => Nat.le_trans hjk (h op rest hts)

/-- Reading stops at every punctuator that is no operator. -/
theorem stops_cons_of_ne {k : Nat} {p : Punctuator} {rest : List DirectiveToken}
    (h : ∀ op, p ≠ BinaryOperator.punctuator op) : Stops k (.punctuator p :: rest) := by
  intro op rest' heq
  simp only [List.cons.injEq, DirectiveToken.punctuator.injEq] at heq
  exact absurd heq.1 (h op)

/-- Reading stops at an operator of a level that is not below the present one. -/
theorem stops_operator {k : Nat} {op : BinaryOperator} {rest : List DirectiveToken}
    (h : k ≤ op.level) : Stops k (.punctuator op.punctuator :: rest) := by
  intro op' rest' heq
  simp only [List.cons.injEq, DirectiveToken.punctuator.injEq] at heq
  have hop := BinaryOperator.ofPunctuator?_eq_some_iff.mpr heq.1
  rw [BinaryOperator.ofPunctuator?_eq_some_iff.mpr rfl] at hop
  exact Option.some.inj hop ▸ h

/-- Nothing more is read after an operand that no operator of the level follows. -/
theorem operations_of_stops (a : Algebra α) {k : Nat} (left : α) {ts : List DirectiveToken}
    {bound : Nat} (h : ts.length < bound) (hstops : Stops (k + 1) ts) :
    operations a k left ts bound h = .ok ⟨left, ts, h⟩ := by
  rw [operations]
  split
  · rfl
  · rename_i op rest hop
    have hlevel := hstops op rest (binaryOperator?_eq_some_iff.mp hop)
    simp only
    rw [if_neg (by omega)]

/-- An operator of the level is read with its right operand, and then the operators after
that. -/
theorem operations_operator (a : Algebra α) (op : BinaryOperator) (left : α)
    (rest : List DirectiveToken) (bound : Nat)
    (h : (DirectiveToken.punctuator op.punctuator :: rest).length < bound) :
    operations a op.level left (.punctuator op.punctuator :: rest) bound h =
      match operation a op.level rest with
      | .error e => .error e
      | .ok right =>
        match a.binary op left right.value with
        | .error e => .error e
        | .ok value => operations a op.level value right.rest bound
            (Nat.lt_trans right.shorter (Nat.lt_of_succ_lt h)) := by
  have hread := binaryOperator?_eq_some_iff.mpr
    (rfl : DirectiveToken.punctuator op.punctuator :: rest = _)
  rw [operations]
  split
  · rename_i hnone
    rw [hread] at hnone
    cases hnone
  · rename_i op' rest' hsome
    rw [hread] at hsome
    obtain ⟨rfl, rfl⟩ := Prod.mk.inj (Option.some.inj hsome)
    exact if_pos rfl

/-- What it means that an expression of some level is read back as `v`. Below the
top level the reader may still go on with operators of its own level, so that the
statement leaves them to it. -/
def ReadsBack (a : Algebra α) (e : Expression) (v : α) : Nat → Prop
  | 0 => ∀ ts rest, ts = e.spelling ++ rest → ∃ h, operand a ts = .ok ⟨v, rest, h⟩
  | 11 => ∀ ts rest, ts = e.spelling ++ rest → Stops 10 rest → after? .question rest = none →
    ∃ h, expression a ts = .ok ⟨v, rest, h⟩
  | k + 1 => ∀ ts rest, ts = e.spelling ++ rest → Stops k rest →
    ∃ h, operation a (k + 1) ts = operations a k v rest ts.length h

/-- An expression is read back at a level if that level, once it has read the expression, goes on
with the operators behind it. -/
theorem readsBack_succ {a : Algebra α} {e : Expression} {v : α} {k : Nat} (hk : k < 10) :
    ReadsBack a e v (k + 1) ↔ ∀ ts rest, ts = e.spelling ++ rest → Stops k rest →
      ∃ h, operation a (k + 1) ts = operations a k v rest ts.length h := by
  have hne : k ≠ 10 := by omega
  rw [ReadsBack.eq_3 a e v k hne]

/-- An expression that is read back at some level is read there as a whole if no
operator of the level follows it. -/
theorem ReadsBack.operation {a : Algebra α} {e : Expression} {v : α} {k : Nat} (hk : k ≤ 10)
    (h : ReadsBack a e v k) {ts rest : List DirectiveToken} (hts : ts = e.spelling ++ rest)
    (hstops : Stops k rest) : ∃ h, operation a k ts = .ok ⟨v, rest, h⟩ := by
  cases k with
  | zero =>
    rw [Condition.operation]
    exact h ts rest hts
  | succ k =>
    obtain ⟨hlt, hread⟩ := (readsBack_succ (by omega)).mp h ts rest hts (hstops.mono (by omega))
    exact ⟨hlt, hread.trans (operations_of_stops a v hlt hstops)⟩

/-- A name in parentheses behind `defined` is read to the closing one. -/
theorem definedName_parenthesized (a : Algebra α) (name : String) (rest : List DirectiveToken) :
    ∃ h, definedName a
      (.punctuator .leftParen :: .identifier name :: .punctuator .rightParen :: rest) =
        .ok ⟨a.isDefined name, rest, h⟩ := by
  refine ⟨by simp only [List.length_cons]; omega, ?_⟩
  rw [definedName]
  split
  · rename_i rest' hparen
    rw [after?_cons_self] at hparen
    obtain rfl := Option.some.inj hparen
    rfl
  · rename_i hparen
    simp at hparen

/-- A test for a macro is read back, with parentheses or without. -/
theorem readsBack_isDefined (a : Algebra α) (parenthesized : Bool) (name : String) :
    ReadsBack a (.isDefined parenthesized name) (a.isDefined name) 0 := by
  rintro _ rest rfl
  cases parenthesized with
  | false =>
    refine ⟨?_, by simp [Expression.spelling, operand, definedName]⟩
    simp only [Expression.spelling, List.cons_append, List.nil_append, List.length_cons]
    omega
  | true =>
    obtain ⟨hlt, hread⟩ := definedName_parenthesized a name rest
    exact ⟨Nat.lt_succ_of_lt hlt, by simp [Expression.spelling, operand, hread]⟩

/-- Parentheses around an expression that is read back are one operand. -/
theorem readsBack_parentheses {a : Algebra α} {inner : Expression} {v : α}
    (h : ReadsBack a inner v 11) : ReadsBack a (.parentheses inner) v 0 := by
  rintro _ rest rfl
  obtain ⟨hlt, hread⟩ := h _ (.punctuator .rightParen :: rest) rfl
    (stops_cons_of_ne (by intro op; cases op <;> decide)) rfl
  have hts : (Expression.parentheses inner).spelling ++ rest =
      .punctuator .leftParen :: (inner.spelling ++ .punctuator .rightParen :: rest) := by
    simp [Expression.spelling]
  rw [hts]
  refine ⟨?_, ?_⟩
  · simp only [List.length_cons, List.length_append]
    omega
  · simp only [operand, UnaryOperator.ofPunctuator?, ↓reduceIte, hread]
    split
    · rename_i rest' hparen
      rw [after?_cons_self] at hparen
      obtain rfl := Option.some.inj hparen
      rfl
    · rename_i hparen
      simp at hparen

/-- An operator before an operand that is read back is one operand with it. -/
theorem readsBack_unary {a : Algebra α} {inner : Expression} {v : α} (op : UnaryOperator)
    (h : ReadsBack a inner v 0) : ReadsBack a (.unary op inner) (a.unary op v) 0 := by
  rintro _ rest rfl
  obtain ⟨hlt, hread⟩ := h _ rest rfl
  refine ⟨Nat.lt_succ_of_lt hlt, ?_⟩
  simp [Expression.spelling, operand, UnaryOperator.ofPunctuator?_eq_some_iff.mpr rfl, hread]

/-- Each level reads what the level before it reads. -/
theorem ReadsBack.raise {a : Algebra α} {e : Expression} {v : α} {k : Nat} (hk : k ≤ 10)
    (h : ReadsBack a e v k) : ReadsBack a e v (k + 1) := by
  by_cases hten : k = 10
  · subst hten
    rintro ts rest hts hstops hquestion
    obtain ⟨hlt, hread⟩ := h.operation (by omega) hts hstops
    refine ⟨hlt, ?_⟩
    rw [expression]
    simp only [hread]
    split
    · rfl
    · rename_i hquestion'
      rw [hquestion] at hquestion'
      cases hquestion'
  · refine (readsBack_succ (by omega)).mpr fun ts rest hts hstops => ?_
    obtain ⟨hlt, hread⟩ := h.operation hk hts hstops
    refine ⟨hlt, ?_⟩
    rw [Condition.operation]
    simp [hread]

/-- The operators of a level are read from the left to the right. -/
theorem readsBack_binary {a : Algebra α} {op : BinaryOperator} {left right : Expression}
    {x y v : α} (hleft : ReadsBack a left x (op.level + 1)) (hright : ReadsBack a right y op.level)
    (hv : a.binary op x y = .ok v) : ReadsBack a (.binary op left right) v (op.level + 1) := by
  refine (readsBack_succ op.level_lt).mpr fun ts rest hts hstops => ?_
  have hassoc : ts = left.spelling ++ .punctuator op.punctuator :: (right.spelling ++ rest) := by
    rw [hts]
    simp [Expression.spelling]
  obtain ⟨hltLeft, hreadLeft⟩ := (readsBack_succ op.level_lt).mp hleft ts _ hassoc
    (stops_operator (Nat.le_refl _))
  have hk := op.level_lt
  obtain ⟨hltRight, hreadRight⟩ := hright.operation (by omega) rfl hstops
  have hlt : rest.length < ts.length := by
    rw [List.length_cons] at hltLeft
    omega
  refine ⟨hlt, ?_⟩
  rw [hreadLeft, operations_operator]
  simp only [hreadRight, hv]

/-- The last operand of a choice takes up all that follows. -/
theorem readsBack_choice {a : Algebra α} {condition yes no : Expression} {c x y : α}
    (hcondition : ReadsBack a condition c 10) (hyes : ReadsBack a yes x 11)
    (hno : ReadsBack a no y 11) :
    ReadsBack a (.choice condition yes no) (a.choice c x y) 11 := by
  rintro ts rest hts hstops hquestion
  obtain ⟨hltNo, hreadNo⟩ := hno _ rest rfl hstops hquestion
  obtain ⟨hltYes, hreadYes⟩ := hyes _ (.punctuator .colon :: (no.spelling ++ rest)) rfl
    (stops_cons_of_ne (by intro op; cases op <;> decide)) rfl
  have hassoc : ts = condition.spelling ++ .punctuator .question ::
      (yes.spelling ++ .punctuator .colon :: (no.spelling ++ rest)) := by
    rw [hts]
    simp [Expression.spelling]
  obtain ⟨hlt, hread⟩ := hcondition.operation (by omega) hassoc
    (stops_cons_of_ne (by intro op; cases op <;> decide))
  refine ⟨?_, ?_⟩
  · rw [List.length_cons] at hlt hltYes
    omega
  · rw [expression]
    simp only [hread]
    split
    · rename_i hnone
      simp at hnone
    · rename_i rest' hsome
      rw [after?_cons_self] at hsome
      obtain rfl := Option.some.inj hsome
      simp only [hreadYes]
      split
      · rename_i hnone
        simp at hnone
      · rename_i rest' hsome
        rw [after?_cons_self] at hsome
        obtain rfl := Option.some.inj hsome
        simp only [hreadNo]

/-- Whatever the grammar admits is read back. -/
theorem readsBack_of_grammatical {a : Algebra α} {k : Nat} {e : Expression}
    (h : e.Grammatical k) {v : α} (hv : e.fold a = .ok v) : ReadsBack a e v k := by
  induction h generalizing v with
  | number text =>
    rintro _ rest rfl
    have hv : a.number text = .ok v := hv
    exact ⟨by simp [Expression.spelling], by simp [Expression.spelling, operand, hv]⟩
  | identifier hname =>
    rintro _ rest rfl
    obtain rfl := Except.ok.inj hv
    exact ⟨by simp [Expression.spelling], by simp [Expression.spelling, operand, hname]⟩
  | isDefined parenthesized name =>
    obtain rfl := Except.ok.inj hv
    exact readsBack_isDefined a parenthesized name
  | parentheses hinner ih => exact readsBack_parentheses (ih hv)
  | unary op hoperand ih =>
    obtain ⟨x, hx, rfl⟩ := Expression.fold_unary_eq_ok_iff.mp hv
    exact readsBack_unary op (ih hx)
  | raise hk h ih => exact (ih hv).raise hk
  | binary hrow hop hleft hright ihleft ihright =>
    obtain rfl := BinaryOperator.exists_row_iff.mp ⟨_, hrow, hop⟩
    obtain ⟨x, y, hx, hy, hv⟩ := Expression.fold_binary_eq_ok_iff.mp hv
    exact readsBack_binary (ihleft hx) (ihright hy) hv
  | choice hcondition hyes hno ihcondition ihyes ihno =>
    obtain ⟨c, x, y, hc, hx, hy, rfl⟩ := Expression.fold_choice_eq_ok_iff.mp hv
    exact readsBack_choice (ihcondition hc) (ihyes hx) (ihno hy)

/-- A list of tokens is read to `v` exactly if it spells a grammatical expression of
which the algebra makes `v`. -/
theorem read_eq_ok_iff {a : Algebra α} {ts : List DirectiveToken} {v : α} :
    read a ts = .ok v ↔
      ∃ e : Expression, e.Grammatical 11 ∧ e.spelling = ts ∧ e.fold a = .ok v := by
  constructor
  · intro h
    unfold read at h
    split at h
    · cases h
    · rename_i whole hwhole
      split at h
      · rename_i hempty
        obtain rfl := Except.ok.inj h
        obtain ⟨e, he, hspelling, hfold⟩ := soundBelow a (ts.length + 1) ts (by omega) whole hwhole
        rw [List.isEmpty_iff.mp hempty, List.append_nil] at hspelling
        exact ⟨e, he, hspelling.symm, hfold⟩
      · cases h
  · rintro ⟨e, he, rfl, hv⟩
    obtain ⟨hlt, hread⟩ := readsBack_of_grammatical he hv _ [] (List.append_nil _).symm
      (by rintro op rest heq; cases heq) rfl
    simp [read, hread]

end SmallC.Condition
