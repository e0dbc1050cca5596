import SmallC.Proofs.Parse.Program

/-!
# Reading declarations

A declaration is read exactly from the tokens that spell it, and what is left are the
tokens after them.
-/

namespace SmallC

/-- Patterns are spelled one token at a time. -/
theorem spells_cons_iff {p : Pattern} {ps : List Pattern} {ts rest : List Token} :
    Spells (p :: ps) ts rest ↔ ∃ t ts', ts = t :: ts' ∧ p.Fits t ∧ Spells ps ts' rest := by
  cases ts with
  | nil => simp [Spells]
  | cons t ts =>
    constructor
    · intro h
      exact ⟨t, ts, rfl, h⟩
    · rintro ⟨_, _, ⟨⟩, h⟩
      exact h

/-- One pattern is spelled by one token. -/
theorem spells_singleton_iff {p : Pattern} {ts rest : List Token} :
    Spells [p] ts rest ↔ ∃ t, ts = t :: rest ∧ p.Fits t := by
  rw [spells_cons_iff]
  constructor
  · rintro ⟨t, _, rfl, ht, rfl⟩
    exact ⟨t, rfl, ht⟩
  · rintro ⟨t, rfl, ht⟩
    exact ⟨t, rest, rfl, ht, rfl⟩

/-- Patterns one behind the other are spelled by tokens one behind the other. -/
theorem spells_append_iff {ps qs : List Pattern} {ts rest : List Token} :
    Spells (ps ++ qs) ts rest ↔ ∃ mid, Spells ps ts mid ∧ Spells qs mid rest := by
  induction ps generalizing ts with
  | nil => simp [Spells]
  | cons p ps ih =>
    simp only [List.cons_append, spells_cons_iff, ih]
    constructor
    · rintro ⟨t, ts', rfl, ht, mid, hps, hqs⟩
      exact ⟨mid, ⟨t, ts', rfl, ht, hps⟩, hqs⟩
    · rintro ⟨mid, ⟨t, ts', rfl, ht, hps⟩, hqs⟩
      exact ⟨t, ts', rfl, ht, mid, hps, hqs⟩

namespace Pattern

/-- A token fits a symbol by its kind. -/
theorem fits_symbol_iff {sign : Symbol} {t : Token} :
    (symbol sign).Fits t ↔ t.kind = .symbol sign := by
  simp [Fits, symbol]

/-- A token fits a keyword by its kind. -/
theorem fits_keyword_iff {word : Keyword} {t : Token} :
    (keyword word).Fits t ↔ t.kind = .keyword word := by
  simp [Fits, keyword]

/-- A pattern that names a token fits only that token. -/
theorem fits_token_iff {kind : TokenKind} {t u : Token} :
    Fits ⟨kind, some u⟩ t ↔ t = u ∧ t.kind = kind := by
  simp [Fits, and_comm]

end Pattern

/-- A kind is that of a type exactly if it is the keyword of the type. -/
theorem Primitive.ofKind?_eq_some_iff {kind : TokenKind} {base : Primitive} :
    ofKind? kind = some base ↔ kind = .keyword base.keyword := by
  constructor
  · intro h
    cases kind with
    | keyword word => cases word <;> cases h <;> rfl
    | _ => cases h
  · rintro rfl
    cases base <;> rfl

namespace Declaration

variable {last : Position} {ts rest : List Token}

/-- Two readings one after the other succeed exactly if each of them does. -/
theorem andThen_eq_ok_iff {α β : Type} {r : Reading α} {f : α → List Token → Reading β} {b : β} :
    andThen r f = (.ok b, rest) ↔ ∃ a mid, r = (.ok a, mid) ∧ f a mid = (.ok b, rest) := by
  obtain ⟨a, mid⟩ := r
  cases a with
  | error d => simp [andThen]
  | ok a =>
    constructor
    · intro h
      exact ⟨a, mid, rfl, h⟩
    · rintro ⟨_, _, ⟨⟩, h⟩
      exact h

/-- The next token is read if there is one. -/
theorem next_eq_ok_iff {expected : String} {t : Token} :
    next last expected ts = (.ok t, rest) ↔ ts = t :: rest := by
  cases ts with
  | nil => simp [next]
  | cons u us => simp [next]

/-- A token of a kind is read if the next one is of that kind. -/
theorem expect_eq_ok_iff {kind : TokenKind} {expected : String} {t : Token} :
    expect last kind expected ts = (.ok t, rest) ↔ ts = t :: rest ∧ t.kind = kind := by
  cases ts with
  | nil => simp [expect]
  | cons u us =>
    by_cases h : u.kind = kind
    · simp only [expect, h, if_true, Prod.mk.injEq, Except.ok.injEq, List.cons.injEq]
      constructor
      · rintro ⟨rfl, rfl⟩
        exact ⟨⟨rfl, rfl⟩, h⟩
      · rintro ⟨⟨rfl, rfl⟩, -⟩
        exact ⟨rfl, rfl⟩
    · simp only [expect, h, if_false, Prod.mk.injEq, reduceCtorEq, false_and, false_iff,
        List.cons.injEq, not_and]
      rintro ⟨rfl, rfl⟩
      exact h

/-- A sign is found at the front by the kind of the first token. -/
theorem startsWith_cons {sign : Symbol} {t : Token} :
    startsWith sign (t :: ts) = true ↔ t.kind = .symbol sign := by
  simp [startsWith]

/-- What is read as a type spells it. -/
theorem spells_of_typeSpec {type : TypeSpec} (h : typeSpec last ts = (.ok type, rest)) :
    Spells type.patterns ts rest := by
  cases ts with
  | nil => simp [typeSpec] at h
  | cons t ts =>
    simp only [typeSpec] at h
    cases hkind : Primitive.ofKind? t.kind with
    | none => simp [hkind] at h
    | some base =>
      have hword := Primitive.ofKind?_eq_some_iff.mp hkind
      simp only [hkind] at h
      cases ts with
      | nil =>
        obtain ⟨rfl, rfl⟩ := h
        exact ⟨Pattern.fits_keyword_iff.mpr hword, rfl⟩
      | cons u ts =>
        by_cases hstar : u.kind = .symbol .star
        · rw [if_pos (startsWith_cons.mpr hstar)] at h
          obtain ⟨rfl, rfl⟩ := h
          exact ⟨Pattern.fits_keyword_iff.mpr hword, Pattern.fits_symbol_iff.mpr hstar, rfl⟩
        · rw [if_neg (mt startsWith_cons.mp hstar)] at h
          obtain ⟨rfl, rfl⟩ := h
          exact ⟨Pattern.fits_keyword_iff.mpr hword, rfl⟩

/-- What spells a type is read as it, if no asterisk behind it would go on with it. -/
theorem typeSpec_of_spells {type : TypeSpec} (h : Spells type.patterns ts rest)
    (hrest : startsWith .star rest = false) : typeSpec last ts = (.ok type, rest) := by
  obtain ⟨base, isPointer⟩ := type
  obtain ⟨t, ts, rfl, ht, h⟩ := spells_cons_iff.mp h
  have hkind := Primitive.ofKind?_eq_some_iff.mpr (Pattern.fits_keyword_iff.mp ht)
  cases isPointer with
  | false =>
    obtain rfl : ts = rest := h
    simp only [typeSpec, hkind, hrest, Bool.false_eq_true, if_false]
  | true =>
    obtain ⟨u, ts, rfl, hu, h⟩ := spells_cons_iff.mp h
    obtain rfl : ts = rest := h
    have hstar : startsWith .star (u :: ts) = true :=
      startsWith_cons.mpr (Pattern.fits_symbol_iff.mp hu)
    simp only [typeSpec, hkind, hstar, if_true, List.tail_cons]

/-- A type and a name before something else. -/
theorem andThen_typedName_eq_ok_iff {α : Type} {expected : String}
    {f : TypeSpec → Token → List Token → Reading α} {a : α} :
    (andThen (typeSpec last ts) fun type ts =>
        andThen (expect last .identifier expected ts) (f type)) = (.ok a, rest) ↔
      ∃ type name mid, Spells (typedName type name) ts mid ∧ f type name mid = (.ok a, rest) := by
  simp only [andThen_eq_ok_iff, expect_eq_ok_iff, typedName, spells_append_iff]
  constructor
  · rintro ⟨type, ts', htype, name, mid, ⟨rfl, hname⟩, hf⟩
    exact ⟨type, name, mid, ⟨_, spells_of_typeSpec htype,
      Pattern.fits_token_iff.mpr ⟨rfl, hname⟩, rfl⟩, hf⟩
  · rintro ⟨type, name, mid, ⟨ts', htype, hname⟩, hf⟩
    obtain ⟨t, ts'', rfl, ht, hmid⟩ := spells_cons_iff.mp hname
    obtain rfl : ts'' = mid := hmid
    obtain ⟨rfl, hkind⟩ := Pattern.fits_token_iff.mp ht
    refine ⟨type, _, typeSpec_of_spells htype ?_, t, ts'', ⟨rfl, hkind⟩, hf⟩
    simp [startsWith, hkind]

/-- A parameter is read exactly from what spells its type and its name. -/
theorem parameter_eq_ok_iff {p : Parameter} :
    parameter last ts = (.ok p, rest) ↔ Spells (typedName p.type p.name) ts rest := by
  unfold parameter
  rw [andThen_typedName_eq_ok_iff]
  constructor
  · rintro ⟨type, name, mid, h, heq⟩
    obtain ⟨rfl, rfl⟩ := heq
    exact h
  · intro h
    exact ⟨p.type, p.name, rest, h, rfl⟩

/-- Several parameters are spelled by the first one, a comma and the others. -/
theorem spells_parameterPatterns_cons {p : Parameter} {ps : List Parameter} (hps : ps ≠ []) :
    Spells (parameterPatterns (p :: ps) ++ [.symbol .rightParen]) ts rest ↔
      ∃ t mid, Spells (typedName p.type p.name) ts (t :: mid) ∧ t.kind = .symbol .comma ∧
        Spells (parameterPatterns ps ++ [.symbol .rightParen]) mid rest := by
  obtain ⟨q, qs, rfl⟩ := List.exists_cons_of_ne_nil hps
  rw [parameterPatterns, List.append_assoc, spells_append_iff]
  · simp only [List.cons_append, spells_cons_iff, Pattern.fits_symbol_iff]
    constructor
    · rintro ⟨_, hp, t, mid, rfl, ht, hqs⟩
      exact ⟨t, mid, hp, ht, hqs⟩
    · rintro ⟨t, mid, hp, ht, hqs⟩
      exact ⟨_, hp, t, mid, rfl, ht, hqs⟩
  · simp

/-- The last parameter is spelled in front of the closing parenthesis. -/
theorem spells_parameterPatterns_singleton {p : Parameter} :
    Spells (parameterPatterns [p] ++ [.symbol .rightParen]) ts rest ↔
      ∃ t, Spells (typedName p.type p.name) ts (t :: rest) ∧ t.kind = .symbol .rightParen := by
  rw [parameterPatterns, spells_append_iff]
  simp only [spells_cons_iff, Pattern.fits_symbol_iff, Spells]
  constructor
  · rintro ⟨_, hp, t, _, rfl, ht, rfl⟩
    exact ⟨t, hp, ht⟩
  · rintro ⟨t, hp, ht⟩
    exact ⟨_, hp, t, rest, rfl, ht, rfl⟩

/-- What is read behind a parameter depends on the sign behind it. -/
theorem parameters_of_parameter {done : List Parameter} {p : Parameter} {t : Token}
    {mid : List Token} (h : Spells (typedName p.type p.name) ts (t :: mid)) :
    parameters last done ts =
      if t.kind = .symbol .rightParen then (.ok (done.reverse ++ [p]), mid)
      else if t.kind = .symbol .comma then parameters last (p :: done) mid
      else (.error (unexpected t "',' or ')'"), mid) := by
  have hp : parameter last ts = (.ok p, t :: mid) := parameter_eq_ok_iff.mpr h
  rw [parameters]
  split
  · rename_i hp'
    rw [hp] at hp'
    cases hp'
  · split
    · rename_i hp' _
      rw [hp] at hp'
      cases hp'
    · rename_i hp' _
      rw [hp] at hp'
      cases hp'
      rfl

/-- What is read as parameters spells them, up to the closing parenthesis; the ones read before come
first. -/
theorem spells_of_parameters {done ps : List Parameter}
    (h : parameters last done ts = (.ok ps, rest)) :
    ∃ q qs, ps = done.reverse ++ q :: qs ∧
      Spells (parameterPatterns (q :: qs) ++ [.symbol .rightParen]) ts rest := by
  fun_induction parameters last done ts with
  | case1 => cases h
  | case2 => cases h
  | case3 done ts p t mid _ hparen hp =>
    obtain ⟨rfl, rfl⟩ := h
    exact ⟨p, [], rfl, spells_parameterPatterns_singleton.mpr
      ⟨t, parameter_eq_ok_iff.mp hp, hparen⟩⟩
  | case4 done ts p t mid _ _ hcomma hp ih =>
    obtain ⟨q, qs, rfl, hqs⟩ := ih h
    refine ⟨p, q :: qs, by simp, (spells_parameterPatterns_cons (by simp)).mpr ?_⟩
    exact ⟨t, mid, parameter_eq_ok_iff.mp hp, hcomma, hqs⟩
  | case5 => cases h

/-- What spells parameters is read as them. -/
theorem parameters_of_spells {done : List Parameter} {p : Parameter} {ps : List Parameter}
    (h : Spells (parameterPatterns (p :: ps) ++ [.symbol .rightParen]) ts rest) :
    parameters last done ts = (.ok (done.reverse ++ p :: ps), rest) := by
  induction ps generalizing done p ts with
  | nil =>
    obtain ⟨t, hp, ht⟩ := spells_parameterPatterns_singleton.mp h
    rw [parameters_of_parameter hp, if_pos ht]
  | cons q qs ih =>
    obtain ⟨t, mid, hp, ht, hqs⟩ := (spells_parameterPatterns_cons (by simp)).mp h
    rw [parameters_of_parameter hp, if_neg (by simp [ht]), if_pos ht, ih hqs]
    simp

/-- Parameters start with the keyword of a type, so that no empty list is taken for one. -/
theorem kind_of_spells_parameterPatterns {p : Parameter} {ps : List Parameter} {t : Token}
    (h : Spells (parameterPatterns (p :: ps) ++ [.symbol .rightParen]) (t :: ts) rest) :
    t.kind = .keyword p.type.base.keyword := by
  cases ps <;> exact Pattern.fits_keyword_iff.mp h.1

/-- A list of parameters is read from its spelling. -/
theorem parameterList_eq_ok_iff {ps : List Parameter} :
    parameterList last ts = (.ok ps, rest) ↔
      Spells (parameterPatterns ps ++ [.symbol .rightParen]) ts rest := by
  unfold parameterList
  by_cases hparen : startsWith .rightParen ts = true
  · rw [if_pos hparen]
    cases ts with
    | nil => cases hparen
    | cons t ts =>
      have ht := startsWith_cons.mp hparen
      cases ps with
      | nil =>
        rw [parameterPatterns, List.nil_append]
        simp [Spells, Pattern.fits_symbol_iff, ht]
      | cons p ps =>
        constructor
        · rintro ⟨⟩
        · intro h
          have hhead := kind_of_spells_parameterPatterns h
          rw [ht] at hhead
          cases hhead
  · rw [if_neg hparen]
    constructor
    · intro h
      obtain ⟨q, qs, rfl, hqs⟩ := spells_of_parameters h
      exact hqs
    · intro h
      cases ps with
      | nil =>
        obtain ⟨t, _, rfl, ht, -⟩ := spells_cons_iff.mp h
        exact absurd (startsWith_cons.mpr (Pattern.fits_symbol_iff.mp ht)) hparen
      | cons p ps => exact parameters_of_spells h

/-- What is read after the opening parenthesis of a function. -/
theorem readFunction_eq_ok_iff {type : TypeSpec} {name : Token} {d : Declaration} :
    readFunction last type name ts = (.ok d, rest) ↔
      ∃ ps t, Spells (parameterPatterns ps ++ [.symbol .rightParen]) ts (t :: rest) ∧
        (t.kind = .symbol .semi ∧ d = .prototype ⟨type, name, ps⟩ ∨
          t.kind = .symbol .leftBrace ∧ d = .definition ⟨type, name, ps⟩) := by
  simp only [readFunction, andThen_eq_ok_iff, parameterList_eq_ok_iff, next_eq_ok_iff]
  constructor
  · rintro ⟨ps, _, hps, t, mid, rfl, h⟩
    split at h
    · rename_i ht
      obtain ⟨rfl, rfl⟩ := h
      exact ⟨ps, t, hps, .inl ⟨ht, rfl⟩⟩
    · split at h
      · rename_i ht
        obtain ⟨rfl, rfl⟩ := h
        exact ⟨ps, t, hps, .inr ⟨ht, rfl⟩⟩
      · cases h
  · rintro ⟨ps, t, hps, ⟨ht, rfl⟩ | ⟨ht, rfl⟩⟩
    · exact ⟨ps, _, hps, t, rest, rfl, by rw [if_pos ht]⟩
    · exact ⟨ps, _, hps, t, rest, rfl, by rw [if_neg (by simp [ht]), if_pos ht]⟩

/-- What is read after the name of a variable. -/
theorem readVariable_eq_ok_iff {type : TypeSpec} {name : Token} {d : Declaration} :
    readVariable last type name ts = (.ok d, rest) ↔
      d = .variable type name none ∧ Spells [.symbol .semi] ts rest ∨
        ∃ value, d = .variable type name (some value) ∧
          Spells [.symbol .eq, ⟨value.kind, some value⟩, .symbol .semi] ts rest := by
  simp only [readVariable, andThen_eq_ok_iff, next_eq_ok_iff]
  constructor
  · rintro ⟨t, mid, rfl, h⟩
    split at h
    · rename_i ht
      simp only [andThen_eq_ok_iff, next_eq_ok_iff, expect_eq_ok_iff] at h
      obtain ⟨value, _, rfl, semi, _, ⟨rfl, hsemi⟩, h⟩ := h
      obtain ⟨rfl, rfl⟩ := h
      exact .inr ⟨value, rfl, Pattern.fits_symbol_iff.mpr ht,
        Pattern.fits_token_iff.mpr ⟨rfl, rfl⟩, Pattern.fits_symbol_iff.mpr hsemi, rfl⟩
    · split at h
      · rename_i ht
        obtain ⟨rfl, rfl⟩ := h
        exact .inl ⟨rfl, Pattern.fits_symbol_iff.mpr ht, rfl⟩
      · cases h
  · rintro (⟨rfl, h⟩ | ⟨value, rfl, h⟩)
    · obtain ⟨t, rfl, ht⟩ := spells_singleton_iff.mp h
      have ht := Pattern.fits_symbol_iff.mp ht
      exact ⟨t, rest, rfl, by rw [if_neg (by simp [ht]), if_pos ht]⟩
    · obtain ⟨t, _, rfl, ht, h⟩ := spells_cons_iff.mp h
      obtain ⟨u, _, rfl, hvalue, hsemi⟩ := spells_cons_iff.mp h
      obtain ⟨rfl, -⟩ := Pattern.fits_token_iff.mp hvalue
      obtain ⟨semi, rfl, hfits⟩ := spells_singleton_iff.mp hsemi
      refine ⟨t, _, rfl, ?_⟩
      rw [if_pos (Pattern.fits_symbol_iff.mp ht)]
      simp only [andThen_eq_ok_iff, next_eq_ok_iff, expect_eq_ok_iff]
      exact ⟨_, _, rfl, semi, rest, ⟨rfl, Pattern.fits_symbol_iff.mp hfits⟩, rfl⟩

/-- Strings are read up to the brace after them. -/
theorem sources_eq_ok_iff {done ss : List Token} :
    sources last done ts = (.ok ss, rest) ↔
      ∃ ss', ss = done.reverse ++ ss' ∧
        Spells (ss'.map (⟨.string, some ·⟩) ++ [.symbol .rightBrace]) ts rest := by
  induction ts generalizing done with
  | nil =>
    constructor
    · rintro ⟨⟩
    · rintro ⟨ss', rfl, h⟩
      cases ss' <;> cases h
  | cons t ts ih =>
    simp only [sources]
    constructor
    · intro h
      split at h
      · rename_i hbrace
        obtain ⟨rfl, rfl⟩ := h
        exact ⟨[], by simp, Pattern.fits_symbol_iff.mpr hbrace, rfl⟩
      · split at h
        · rename_i hstring
          obtain ⟨ss', rfl, hss'⟩ := ih.mp h
          exact ⟨t :: ss', by simp, Pattern.fits_token_iff.mpr ⟨rfl, hstring⟩, hss'⟩
        · cases h
    · rintro ⟨ss', rfl, h⟩
      cases ss' with
      | nil =>
        obtain ⟨hbrace, rfl⟩ := h
        rw [if_pos (Pattern.fits_symbol_iff.mp hbrace), List.append_nil]
      | cons s ss' =>
        obtain ⟨hs, hss'⟩ := h
        obtain ⟨rfl, hstring⟩ := Pattern.fits_token_iff.mp hs
        rw [if_neg (by simp [hstring]), if_pos hstring]
        exact ih.mpr ⟨ss', by simp, hss'⟩

/-- What is read after the word that starts a block of assembly. -/
theorem readAssembly_eq_ok_iff {d : Declaration} :
    readAssembly last ts = (.ok d, rest) ↔
      ∃ ss, d = .assembly ss ∧
        Spells (.symbol .leftBrace :: ss.map (⟨.string, some ·⟩) ++ [.symbol .rightBrace]) ts
          rest := by
  simp only [readAssembly, andThen_eq_ok_iff, expect_eq_ok_iff, sources_eq_ok_iff]
  constructor
  · rintro ⟨brace, mid, ⟨rfl, hbrace⟩, _, _, ⟨ss, rfl, hss⟩, h⟩
    obtain ⟨rfl, rfl⟩ := h
    exact ⟨_, rfl, Pattern.fits_symbol_iff.mpr hbrace, hss⟩
  · rintro ⟨ss, rfl, h⟩
    obtain ⟨brace, mid, rfl, hbrace, hss⟩ := spells_cons_iff.mp h
    exact ⟨brace, mid, ⟨rfl, Pattern.fits_symbol_iff.mp hbrace⟩, ss, rest, ⟨ss, rfl, hss⟩, rfl⟩

/-- The header of a function is spelled by its type and name and its parameters in parentheses, with
the sign behind it that tells a prototype from a definition. -/
theorem spells_header_iff {h : FunctionHeader} {sign : Symbol} :
    Spells (h.patterns ++ [.symbol sign]) ts rest ↔
      ∃ paren mid t, Spells (typedName h.type h.name) ts (paren :: mid) ∧
        paren.kind = .symbol .leftParen ∧
        Spells (parameterPatterns h.parameters ++ [.symbol .rightParen]) mid (t :: rest) ∧
        t.kind = .symbol sign := by
  have hpatterns : h.patterns ++ [.symbol sign] = typedName h.type h.name ++
      (.symbol .leftParen :: ((parameterPatterns h.parameters ++ [.symbol .rightParen]) ++
        [.symbol sign])) := by
    simp [FunctionHeader.patterns]
  rw [hpatterns, spells_append_iff]
  constructor
  · rintro ⟨_, hname, h⟩
    obtain ⟨paren, mid, rfl, hparen, h⟩ := spells_cons_iff.mp h
    obtain ⟨_, hparameters, h⟩ := spells_append_iff.mp h
    obtain ⟨t, rfl, ht⟩ := spells_singleton_iff.mp h
    exact ⟨paren, mid, t, hname, Pattern.fits_symbol_iff.mp hparen, hparameters,
      Pattern.fits_symbol_iff.mp ht⟩
  · rintro ⟨paren, mid, t, hname, hparen, hparameters, ht⟩
    refine ⟨paren :: mid, hname, Pattern.fits_symbol_iff.mpr hparen, ?_⟩
    exact spells_append_iff.mpr ⟨_, hparameters, Pattern.fits_symbol_iff.mpr ht, rfl⟩

/-- What is read as a declaration that starts with a type spells it. -/
theorem spells_of_readTyped {d : Declaration} (h : readTyped last ts = (.ok d, rest)) :
    Spells d.patterns ts rest := by
  obtain ⟨type, name, mid, hname, h⟩ := andThen_typedName_eq_ok_iff.mp h
  split at h
  · rename_i hparen
    cases mid with
    | nil => cases hparen
    | cons paren mid =>
      obtain ⟨ps, t, hps, ⟨ht, rfl⟩ | ⟨ht, rfl⟩⟩ := readFunction_eq_ok_iff.mp h
      · exact spells_header_iff.mpr ⟨paren, mid, t, hname, startsWith_cons.mp hparen, hps, ht⟩
      · exact spells_header_iff.mpr ⟨paren, mid, t, hname, startsWith_cons.mp hparen, hps, ht⟩
  · obtain ⟨rfl, hsemi⟩ | ⟨value, rfl, hvalue⟩ := readVariable_eq_ok_iff.mp h
    · exact spells_append_iff.mpr ⟨mid, hname, hsemi⟩
    · exact spells_append_iff.mpr ⟨mid, hname, hvalue⟩

/-- Where no parenthesis follows the name, what is read is a variable. -/
theorem readTyped_of_variable {type : TypeSpec} {name : Token} {mid : List Token}
    {d : Declaration} (hname : Spells (typedName type name) ts mid)
    (hmid : startsWith .leftParen mid = false)
    (h : readVariable last type name mid = (.ok d, rest)) :
    readTyped last ts = (.ok d, rest) := by
  refine andThen_typedName_eq_ok_iff.mpr ⟨type, name, mid, hname, ?_⟩
  rw [if_neg (by simp [hmid])]
  exact h

/-- Where a parenthesis follows the name, what is read is a function. -/
theorem readTyped_of_function {type : TypeSpec} {name paren : Token} {mid : List Token}
    {d : Declaration} (hname : Spells (typedName type name) ts (paren :: mid))
    (hparen : paren.kind = .symbol .leftParen)
    (h : readFunction last type name mid = (.ok d, rest)) :
    readTyped last ts = (.ok d, rest) := by
  refine andThen_typedName_eq_ok_iff.mpr ⟨type, name, _, hname, ?_⟩
  rw [if_pos (startsWith_cons.mpr hparen)]
  exact h

/-- A type and a name make a declaration one that starts with a type. -/
theorem read_of_typedName {t : Token} {type : TypeSpec} {name : Token} {mid : List Token}
    (h : Spells (typedName type name) (t :: ts) mid) :
    read last t ts = readTyped last (t :: ts) := by
  have ht := Pattern.fits_keyword_iff.mp h.1
  simp [read, Primitive.ofKind?_eq_some_iff.mpr ht]

/-- What is read as a declaration spells it. -/
theorem spells_of_read {t : Token} {d : Declaration} (h : read last t ts = (.ok d, rest)) :
    Spells d.patterns (t :: ts) rest := by
  unfold read at h
  split at h
  · exact spells_of_readTyped h
  · split at h
    · rename_i hasm
      obtain ⟨ss, rfl, hss⟩ := readAssembly_eq_ok_iff.mp h
      exact ⟨Pattern.fits_keyword_iff.mpr hasm, hss⟩
    · split at h
      · rename_i hbrace
        obtain ⟨rfl, rfl⟩ := h
        exact ⟨Pattern.fits_token_iff.mpr ⟨rfl, hbrace⟩, rfl⟩
      · cases h

/-- After the name of a variable there is an equals sign or a semicolon, so it is not
taken for a function. -/
theorem read_of_variable {t : Token} {type : TypeSpec} {name : Token} {initializer : Option Token}
    (h : Spells (Declaration.variable type name initializer).patterns (t :: ts) rest) :
    read last t ts = (.ok (.variable type name initializer), rest) := by
  cases initializer with
  | none =>
    obtain ⟨mid, hname, hsemi⟩ := spells_append_iff.mp h
    have hread : readVariable last type name mid = (.ok (.variable type name none), rest) :=
      readVariable_eq_ok_iff.mpr (.inl ⟨rfl, hsemi⟩)
    obtain ⟨u, rfl, hu⟩ := spells_singleton_iff.mp hsemi
    rw [read_of_typedName hname]
    exact readTyped_of_variable hname (by simp [startsWith, Pattern.fits_symbol_iff.mp hu]) hread
  | some value =>
    obtain ⟨mid, hname, hvalue⟩ := spells_append_iff.mp h
    have hread : readVariable last type name mid = (.ok (.variable type name (some value)), rest) :=
      readVariable_eq_ok_iff.mpr (.inr ⟨value, rfl, hvalue⟩)
    obtain ⟨u, _, rfl, hu, -⟩ := spells_cons_iff.mp hvalue
    rw [read_of_typedName hname]
    exact readTyped_of_variable hname (by simp [startsWith, Pattern.fits_symbol_iff.mp hu]) hread

/-- What spells a declaration is read as it. -/
theorem read_of_spells {t : Token} {d : Declaration} (h : Spells d.patterns (t :: ts) rest) :
    read last t ts = (.ok d, rest) := by
  cases d with
  | «variable» type name initializer => exact read_of_variable h
  | prototype header =>
    obtain ⟨paren, mid, u, hname, hparen, hps, hu⟩ := spells_header_iff.mp h
    rw [read_of_typedName hname]
    exact readTyped_of_function hname hparen
      (readFunction_eq_ok_iff.mpr ⟨_, u, hps, .inl ⟨hu, rfl⟩⟩)
  | definition header =>
    obtain ⟨paren, mid, u, hname, hparen, hps, hu⟩ := spells_header_iff.mp h
    rw [read_of_typedName hname]
    exact readTyped_of_function hname hparen
      (readFunction_eq_ok_iff.mpr ⟨_, u, hps, .inr ⟨hu, rfl⟩⟩)
  | assembly ss =>
    have ht : t.kind = .keyword .asm := Pattern.fits_keyword_iff.mp h.1
    rw [read, if_neg (by simp [ht, Primitive.ofKind?, Primitive.ofKeyword?]), if_pos ht]
    exact readAssembly_eq_ok_iff.mpr ⟨ss, rfl, h.2⟩
  | close brace =>
    obtain ⟨⟨rfl, ht⟩, rfl⟩ := And.imp_left Pattern.fits_token_iff.mp h
    rw [read, if_neg (by simp [ht, Primitive.ofKind?]), if_neg (by simp [ht]), if_pos ht]

/-- A declaration is read exactly from its spelling. -/
theorem read_eq_ok_iff {t : Token} {d : Declaration} :
    read last t ts = (.ok d, rest) ↔ Spells d.patterns (t :: ts) rest :=
  ⟨spells_of_read, read_of_spells⟩

end Declaration

end SmallC
