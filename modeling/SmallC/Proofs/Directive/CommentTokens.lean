import Mathlib.Order.Bounds.Basic
import SmallC.Proofs.Directive.Tiling

/-!
# Comments and tokens

The comment of a directive line is found by following the quotes of the line, and its tokens are
cut off by another scanner, which knows quotes as a class of tokens. Both see the same quotes: a
comment starts at the first two slashes that are tokens of the line, one right behind the other,
and the tokens before it are the same whether it is dropped or not.
-/

namespace SmallC.DirectiveToken

variable {offset place : Nat} {c : Char} {cs spelling rest rest' : List Char}
  {token : DirectiveToken}

/-! ## What is behind a token -/

/-- A token that is written in a line is still written if the line ends earlier. -/
theorem IsWritten.of_isPrefix (h : IsWritten token spelling rest) (hrest : rest' <+: rest) :
    IsWritten token spelling rest' := by
  have hhead (d : Char) (hd : d ∈ rest'.head?) : d ∈ rest.head? := by
    obtain ⟨more, rfl⟩ := List.head?_eq_some_iff.mp hd
    obtain ⟨after, rfl⟩ := hrest
    rfl
  have hstart (p : List Char) (hp : p <+: spelling ++ rest') : p <+: spelling ++ rest :=
    hp.trans ((List.prefix_append_right_inj spelling).mpr hrest)
  cases token with
  | identifier name =>
    obtain ⟨hspelling, hname, hends⟩ := h
    exact ⟨hspelling, hname, fun d hd => hends d (hhead d hd)⟩
  | number text =>
    obtain ⟨hspelling, htext, hends⟩ := h
    exact ⟨hspelling, htext, fun d hd => hends d (hhead d hd)⟩
  | quoted text =>
    obtain ⟨quote, hquote, htext, hclosed | ⟨hunclosed, rfl⟩⟩ := h
    · exact ⟨quote, hquote, htext, .inl hclosed⟩
    · exact ⟨quote, hquote, htext, .inr ⟨hunclosed, List.prefix_nil.mp hrest⟩⟩
  | punctuator sign =>
    obtain ⟨hspelling, hlongest⟩ := h
    exact ⟨hspelling, fun p hp => hlongest p (hstart _ hp)⟩
  | other c =>
    obtain ⟨hspelling, hblank, hword, hdigit, hquote, hnone⟩ := h
    exact ⟨hspelling, hblank, hword, hdigit, hquote, fun p hp => hnone p (hstart _ hp)⟩

/-! ## Comments behind a token -/

/-- A run of letters and digits has neither quotes nor slashes. -/
theorem isPlain_of_isRun (hcs : Text.isRun cs) : cs.all isPlain :=
  all_isPlain fun _ hc =>
    Text.continuesIdentifier_of_isAlphanumeric (Text.isAlphanumeric_of_mem hcs hc)

/-- The only punctuator with a slash or a quote in it is the slash. -/
theorem isPlain_spelling {sign : Punctuator} (hsign : sign ≠ .slash) :
    sign.spelling.all isPlain := by
  cases sign <;> first | rfl | exact absurd rfl hsign

/-- Unless a comment starts at a token, the token stays when the comment of the line is dropped. -/
theorem IsWritten.stripComment_append (h : IsWritten token spelling rest)
    (hcomment : ¬ ['/', '/'] <+: spelling ++ rest) :
    stripComment (spelling ++ rest) = spelling ++ stripComment rest := by
  cases token with
  | identifier name =>
    obtain ⟨-, hname, -⟩ := h
    exact stripComment_append_of_plain (isPlain_of_isIdentifier hname) rest
  | number text =>
    obtain ⟨-, htext, -⟩ := h
    exact stripComment_append_of_plain (isPlain_of_isRun htext) rest
  | quoted text =>
    obtain ⟨quote, hquote, htext, hspelling⟩ := h
    have hopens (ds : List Char) :
        stripComment (quote :: ds) = quote :: stripFrom (some quote) ds := by
      have hslash : quote ≠ '/' := by rintro rfl; revert hquote; decide
      have hstep := stripFrom_cons (not_startsComment_of_ne hslash : ¬ StartsComment none quote ds)
      rwa [quoteAfter, if_pos hquote] at hstep
    rcases hspelling with rfl | ⟨rfl, rfl⟩
    · rw [List.append_assoc, List.cons_append, hopens, List.singleton_append,
        stripFrom_some_append htext]
      simp [stripComment, stripFrom]
    · rw [List.append_nil, hopens, stripFrom_some_of_not_mem htext]
      exact (List.append_nil _).symm
  | punctuator sign =>
    obtain ⟨rfl, -⟩ := h
    by_cases hsign : sign = .slash
    · subst hsign
      have hstart : ¬ StartsComment none '/' rest := by
        rintro ⟨-, -, hrest⟩
        obtain ⟨more, rfl⟩ := List.head?_eq_some_iff.mp hrest
        exact hcomment ⟨more, rfl⟩
      exact stripFrom_cons hstart
    · exact stripComment_append_of_plain (isPlain_spelling hsign) rest
  | other c =>
    obtain ⟨rfl, -, -, -, hquote, hnone⟩ := h
    have hslash : c ≠ '/' := by
      rintro rfl
      exact hnone .slash ⟨rest, rfl⟩
    obtain ⟨hdouble, hsingle⟩ := not_or.mp hquote
    exact stripComment_cons_of_plain (by simp [isPlain, hdouble, hsingle, hslash]) rest

/-! ## Tokens and their places -/

/-- The tokens of a text that starts a number of bytes behind the start of a line, with their
places in the line. -/
def locatedFrom (offset : Nat) (cs : List Char) : List (Nat × DirectiveToken) :=
  (allFrom offset [] cs).map fun t => (t.offset, t.token)

/-- The tokens of a line with their places. -/
def located (cs : List Char) : List (Nat × DirectiveToken) :=
  (all cs).map fun t => (t.offset, t.token)

/-- A slash is one of the tokens, and right behind it another one. -/
def SlashPair (tokens : List (Nat × DirectiveToken)) (place : Nat) : Prop :=
  (place, .punctuator .slash) ∈ tokens ∧ (place + 1, .punctuator .slash) ∈ tokens

/-- An empty text has no tokens. -/
theorem locatedFrom_nil (offset : Nat) : locatedFrom offset [] = [] := by
  rw [locatedFrom, allFrom]
  rfl

/-- A blank moves the tokens behind it by a byte. -/
theorem locatedFrom_blank (hc : Text.isBlank c = true) :
    locatedFrom offset (c :: cs) = locatedFrom (offset + 1) cs := by
  rw [locatedFrom, allFrom_blank hc, locatedFrom]

/-- A token is at the place where its spelling starts, and the rest follows behind its bytes. -/
theorem locatedFrom_of_spells (offset : Nat) (h : Spells token spelling rest) :
    locatedFrom offset (spelling ++ rest) =
      (offset, token) :: locatedFrom (offset + byteLength spelling) rest := by
  rw [locatedFrom, allFrom_of_spells offset h, List.map_cons, locatedFrom]

/-- No token is before the start of the text. -/
theorem le_of_mem_locatedFrom (h : (place, token) ∈ locatedFrom offset cs) : offset ≤ place := by
  obtain ⟨t, ht, heq⟩ := List.mem_map.mp h
  obtain ⟨rfl, -⟩ := Prod.mk.inj heq
  exact (tiles_allFrom offset cs).offset_le t ht

/-- No token is behind the end of the text. -/
theorem lt_of_mem_locatedFrom (h : (place, token) ∈ locatedFrom offset cs) :
    place < offset + byteLength cs := by
  obtain ⟨t, ht, heq⟩ := List.mem_map.mp h
  obtain ⟨rfl, -⟩ := Prod.mk.inj heq
  exact (tiles_allFrom offset cs).offset_lt t ht

/-- A token that has its place at the start of a text is written there. -/
theorem exists_isWritten_of_mem (h : (offset, token) ∈ locatedFrom offset cs) :
    ∃ spelling rest, cs = spelling ++ rest ∧ IsWritten token spelling rest := by
  cases cs with
  | nil =>
    rw [locatedFrom_nil] at h
    cases h
  | cons c cs =>
    cases hc : Text.isBlank c with
    | true =>
      rw [locatedFrom_blank hc] at h
      exact absurd (le_of_mem_locatedFrom h) (Nat.not_succ_le_self offset)
    | false =>
      obtain ⟨first, spelling, rest, hcs, hspells⟩ := exists_spells hc cs
      rw [hcs, locatedFrom_of_spells offset hspells] at h
      rcases List.mem_cons.mp h with heq | hlater
      · obtain ⟨-, rfl⟩ := Prod.mk.inj heq
        exact ⟨spelling, rest, hcs, isWritten_of_spells hspells⟩
      · have hpositive := byteLength_pos hspells.ne_nil
        have hplace := le_of_mem_locatedFrom hlater
        omega

/-- A slash alone is always a token of its own: no longer punctuator starts with it. -/
theorem spells_slash (cs : List Char) : Spells (.punctuator .slash) ['/'] cs :=
  spells_punctuator .slash rfl

/-- Where a comment starts, two slashes are tokens. -/
theorem locatedFrom_slashes (offset : Nat) (cs : List Char) :
    locatedFrom offset ('/' :: '/' :: cs) =
      (offset, .punctuator .slash) :: (offset + 1, .punctuator .slash) ::
        locatedFrom (offset + 2) cs := by
  have hfirst := locatedFrom_of_spells offset (spells_slash ('/' :: cs))
  have hsecond := locatedFrom_of_spells (offset + 1) (spells_slash cs)
  exact hfirst.trans (congrArg _ hsecond)

/-- A token at which no comment starts is not the first of two slashes. -/
theorem slashPair_cons_iff (h : IsWritten token spelling rest)
    (hcomment : ¬ ['/', '/'] <+: spelling ++ rest) :
    SlashPair ((offset, token) :: locatedFrom (offset + byteLength spelling) rest) place ↔
      SlashPair (locatedFrom (offset + byteLength spelling) rest) place := by
  have hpositive := byteLength_pos (spells_of_isWritten h).ne_nil
  refine ⟨fun ⟨hfirst, hsecond⟩ => ?_, fun ⟨hfirst, hsecond⟩ =>
    ⟨List.mem_cons_of_mem _ hfirst, List.mem_cons_of_mem _ hsecond⟩⟩
  have hplace : offset ≤ place := by
    rcases List.mem_cons.mp hfirst with heq | hlater
    · exact Nat.le_of_eq (Prod.mk.inj heq).1.symm
    · have hlater := le_of_mem_locatedFrom hlater
      omega
  have hbehind := (List.mem_cons.mp hsecond).resolve_left fun heq => by
    have hoffset := (Prod.mk.inj heq).1
    omega
  refine ⟨(List.mem_cons.mp hfirst).resolve_left fun heq => hcomment ?_, hbehind⟩
  -- the token is a slash, so the slash behind it is the first token of the rest
  obtain ⟨rfl, rfl⟩ := Prod.mk.inj heq
  obtain ⟨rfl, -⟩ := h
  obtain ⟨_, more, rfl, rfl, -⟩ := exists_isWritten_of_mem hbehind
  exact ⟨more, rfl⟩

/-! ## Lines with and without their comments -/

/-- What dropping the comment of a text does to its tokens, and where it cuts the text. -/
structure DropsComment (offset : Nat) (cs : List Char) : Prop where
  /-- The tokens before the comment stay, and those behind its start go. -/
  tokens : ∃ later, locatedFrom offset cs = locatedFrom offset (stripComment cs) ++ later ∧
    ∀ t ∈ later, offset + byteLength (stripComment cs) ≤ t.1
  /-- Without two slashes one behind the other there is no comment. -/
  uncut : stripComment cs = cs → ∀ place, ¬ SlashPair (locatedFrom offset cs) place
  /-- The comment starts at the first two of them. -/
  cut : stripComment cs ≠ cs → IsLeast { place | SlashPair (locatedFrom offset cs) place }
    (offset + byteLength (stripComment cs))

/-- A comment is dropped from its start on. -/
theorem dropsComment_slashes (offset : Nat) (cs : List Char) :
    DropsComment offset ('/' :: '/' :: cs) := by
  have hempty : stripComment ('/' :: '/' :: cs) = [] :=
    stripFrom_of_startsComment ⟨rfl, rfl, rfl⟩
  have hslashes := locatedFrom_slashes offset cs
  constructor
  · refine ⟨_, by rw [hempty, locatedFrom_nil, List.nil_append], fun t ht => ?_⟩
    rw [hempty]
    exact le_of_mem_locatedFrom ht
  · intro h
    rw [hempty] at h
    cases h
  · intro _
    rw [hempty]
    refine ⟨?_, fun place hplace => le_of_mem_locatedFrom hplace.1⟩
    show SlashPair _ offset
    rw [hslashes]
    exact ⟨List.mem_cons_self, List.mem_cons_of_mem _ List.mem_cons_self⟩

/-- A blank before a text moves everything by one. -/
theorem DropsComment.cons_blank (hc : Text.isBlank c = true) (h : DropsComment (offset + 1) cs) :
    DropsComment offset (c :: cs) := by
  have hplain : isPlain c = true := by
    simp only [Text.isBlank, Bool.or_eq_true, beq_iff_eq] at hc
    rcases hc with (((rfl | rfl) | rfl) | rfl) | rfl <;> rfl
  have hstrip := stripComment_cons_of_plain hplain cs
  have hlength : offset + byteLength (stripComment (c :: cs)) =
      offset + 1 + byteLength (stripComment cs) := by
    rw [hstrip, byteLength_cons, utf8Size_of_isBlank hc]
    omega
  constructor
  · rw [hlength, hstrip, locatedFrom_blank hc, locatedFrom_blank hc]
    exact h.tokens
  · rw [hstrip, locatedFrom_blank hc]
    exact fun heq => h.uncut (List.cons.inj heq).2
  · rw [hlength, hstrip, locatedFrom_blank hc]
    exact fun hne => h.cut fun heq => hne (by rw [heq])

/-- A token before a text stays, unless a comment starts with it. -/
theorem DropsComment.append (h : DropsComment (offset + byteLength spelling) rest)
    (hwritten : IsWritten token spelling rest) (hcomment : ¬ ['/', '/'] <+: spelling ++ rest) :
    DropsComment offset (spelling ++ rest) := by
  have hstrip := hwritten.stripComment_append hcomment
  have hlength : offset + byteLength (stripComment (spelling ++ rest)) =
      offset + byteLength spelling + byteLength (stripComment rest) := by
    rw [hstrip, byteLength_append]
    omega
  have hall := locatedFrom_of_spells offset (spells_of_isWritten hwritten)
  have hshorter : stripComment rest <+: rest := List.take_prefix _ _
  have hkept := locatedFrom_of_spells offset (spells_of_isWritten (hwritten.of_isPrefix hshorter))
  have hpairs (place : Nat) :
      SlashPair (locatedFrom offset (spelling ++ rest)) place ↔
        SlashPair (locatedFrom (offset + byteLength spelling) rest) place := by
    rw [hall]
    exact slashPair_cons_iff hwritten hcomment
  constructor
  · obtain ⟨later, htokens, hlater⟩ := h.tokens
    refine ⟨later, ?_, ?_⟩
    · rw [hall, hstrip, hkept, htokens, List.cons_append]
    · rw [hlength]
      exact hlater
  · intro heq place hpair
    rw [hstrip] at heq
    exact h.uncut (List.append_cancel_left heq) place ((hpairs place).mp hpair)
  · intro hne
    rw [hstrip] at hne
    simp only [hlength, hpairs]
    exact h.cut fun heq => hne (by rw [heq])

/-- Dropping a comment agrees with the tokens of the text. -/
theorem dropsComment (offset : Nat) (cs : List Char) : DropsComment offset cs := by
  induction offset, cs using induction_on_tokens with
  | nil offset =>
    have hnone (place : Nat) : ¬ SlashPair (locatedFrom offset []) place := by
      rw [locatedFrom_nil]
      exact fun hpair => List.not_mem_nil hpair.1
    exact ⟨⟨[], (List.append_nil _).symm, List.forall_mem_nil _⟩, fun _ => hnone,
      fun hne => absurd rfl hne⟩
  | blank offset c cs hc ih => exact ih.cons_blank hc
  | spells offset token spelling rest h ih =>
    by_cases hcomment : ['/', '/'] <+: spelling ++ rest
    · obtain ⟨more, hmore⟩ := hcomment
      rw [← hmore]
      exact dropsComment_slashes offset more
    · exact ih.append (isWritten_of_spells h) hcomment

/-- The tokens of a line without its comment are the tokens of the line that stand before the
comment. There is one if and only if two slashes are tokens of the line, one right behind the
other, and the line is cut at the first such place. -/
theorem located_stripComment (cs : List Char) :
    located (stripComment cs) <+: located cs ∧
      located (stripComment cs) = (located cs).filter
        (fun t => t.1 < (String.ofList (stripComment cs)).utf8ByteSize) ∧
      stripComment cs <+: cs ∧
      (stripComment cs ≠ cs ↔ ∃ place, SlashPair (located cs) place) ∧
      (stripComment cs ≠ cs → IsLeast { place | SlashPair (located cs) place }
        (String.ofList (stripComment cs)).utf8ByteSize) := by
  have h : DropsComment 0 cs := dropsComment 0 cs
  obtain ⟨later, htokens, hlater⟩ := h.tokens
  change located cs = located (stripComment cs) ++ later at htokens
  have hcut := h.cut
  simp only [Nat.zero_add] at hlater hcut
  rw [utf8ByteSize_ofList]
  have hbefore : ∀ t ∈ located (stripComment cs), t.1 < byteLength (stripComment cs) := by
    intro t ht
    have hlt : t.1 < 0 + byteLength (stripComment cs) := lt_of_mem_locatedFrom ht
    omega
  refine ⟨⟨later, htokens.symm⟩, ?_, List.take_prefix _ _, ⟨fun hne => ?_, ?_⟩, hcut⟩
  · rw [htokens, List.filter_append, List.filter_eq_self.mpr (by simpa using hbefore),
      List.filter_eq_nil_iff.mpr (by simpa using hlater), List.append_nil]
  · exact ⟨_, (hcut hne).1⟩
  · rintro ⟨place, hpair⟩ heq
    exact h.uncut heq place hpair

/-- Slashes in quotes start no comment, and of three slashes the first two do. -/
theorem isLeast_three_slashes :
    String.ofList (stripComment "x '//' é///y".toList) = "x '//' é" ∧
      IsLeast { place | SlashPair (located "x '//' é///y".toList) place } 9 := by
  have hstrip : stripComment "x '//' é///y".toList = "x '//' é".toList := by decide +kernel
  have hcut := (located_stripComment "x '//' é///y".toList).2.2.2.2
  rw [hstrip] at hcut ⊢
  exact ⟨String.ofList_toList, hcut (by decide +kernel)⟩

end SmallC.DirectiveToken
