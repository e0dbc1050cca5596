import SmallC.Proofs.Directive.Tokens

/-!
# The tokens of a directive line tile it

A directive line is blanks and the spellings of its tokens, and nothing else. What a token may
be spelled like, and what may come behind it, is said for each class of tokens by itself; then
the tokens of a line are the only ones that can be laid over it from its start to its end.
-/

namespace SmallC

namespace Punctuator

variable {cs : List Char} {sign : Punctuator}

/-- The list has every punctuator. -/
theorem mem_all (p : Punctuator) : p ∈ all := by cases p <;> decide

/-- No punctuator is listed before a longer one that starts with it. -/
theorem pairwise_all : all.Pairwise fun p q =>
    ¬ (p.spelling <+: q.spelling ∧ p.spelling.length < q.spelling.length) := by decide

/-- The longest punctuator that a spelling starts with is the one that it spells. -/
theorem leading?_spelling (p : Punctuator) : leading? p.spelling = some p := by
  cases p <;> rfl

/-- Punctuators are told apart by their spellings. -/
theorem spelling_injective {p q : Punctuator} (h : p.spelling = q.spelling) : p = q := by
  have hq := leading?_spelling q
  rw [← h, leading?_spelling p] at hq
  exact Option.some.inj hq

/-- No punctuator is found where the text starts with none. -/
theorem leading?_eq_none_iff : leading? cs = none ↔ ∀ p : Punctuator, ¬ p.spelling <+: cs := by
  rw [leading?, List.find?_eq_none]
  simp only [List.isPrefixOf_iff_prefix]
  exact ⟨fun h p => h p (mem_all p), fun h p _ => h p⟩

/-- The punctuator that is found stands at the start of the text. -/
theorem prefix_of_leading? (h : leading? cs = some sign) : sign.spelling <+: cs := by
  obtain ⟨hsign, -⟩ := List.find?_eq_some_iff_append.mp h
  exact List.isPrefixOf_iff_prefix.mp hsign

/-- The punctuator that is found is the longest that the text starts with. -/
theorem length_le_of_leading? (h : leading? cs = some sign) {p : Punctuator}
    (hp : p.spelling <+: cs) : p.spelling.length ≤ sign.spelling.length := by
  have hsign := prefix_of_leading? h
  obtain ⟨-, before, after, hall, hbefore⟩ := List.find?_eq_some_iff_append.mp h
  have hmem := mem_all p
  rw [hall, List.mem_append, List.mem_cons] at hmem
  rcases hmem with hmem | rfl | hmem
  · have hnot := hbefore p hmem
    rw [List.isPrefixOf_iff_prefix.mpr hp] at hnot
    cases hnot
  · exact Nat.le_refl _
  · -- a longer one behind it would start with it, and would be listed before it
    refine Nat.le_of_not_lt fun hlt => ?_
    have hpairs := pairwise_all
    rw [hall, List.pairwise_append] at hpairs
    exact (List.pairwise_cons.mp hpairs.2.1).1 p hmem
      ⟨List.prefix_of_prefix_length_le hsign hp (Nat.le_of_lt hlt), hlt⟩

/-- A punctuator is found exactly if it stands at the start of the text and no longer one does. -/
theorem leading?_eq_some_iff : leading? cs = some sign ↔
    sign.spelling <+: cs ∧
      ∀ p : Punctuator, p.spelling <+: cs → p.spelling.length ≤ sign.spelling.length := by
  constructor
  · exact fun h => ⟨prefix_of_leading? h, fun p hp => length_le_of_leading? h hp⟩
  · rintro ⟨hsign, hlongest⟩
    cases h : leading? cs with
    | none => exact absurd hsign (leading?_eq_none_iff.mp h sign)
    | some q =>
      have hq := prefix_of_leading? h
      have hlength := Nat.le_antisymm (hlongest q hq) (length_le_of_leading? h hsign)
      have hstart := List.prefix_of_prefix_length_le hq hsign (Nat.le_of_eq hlength)
      rw [spelling_injective (hstart.eq_of_length hlength)]

end Punctuator

namespace DirectiveToken

variable {offset : Nat} {c : Char} {cs spelling rest : List Char} {token : DirectiveToken}

/-- How a token is written, where `rest` is behind it in the line: as an identifier or a run of
letters and digits that goes on as far as possible, as a text in quotes of one kind, the closing
one missing only at the end of the line, as the longest punctuator that stands there, or as any
other character. -/
def IsWritten (token : DirectiveToken) (spelling rest : List Char) : Prop :=
  match token with
  | .identifier name => spelling = name.toList ∧ Text.isIdentifier spelling ∧
    ∀ d ∈ rest.head?, Text.continuesIdentifier d = false
  | .number text => spelling = text.toList ∧ Text.isRun spelling ∧
    ∀ d ∈ rest.head?, Text.isAlphanumeric d = false
  | .quoted text => ∃ quote, (quote = '"' ∨ quote = '\'') ∧ quote ∉ text.toList ∧
    (spelling = quote :: text.toList ++ [quote] ∨ spelling = quote :: text.toList ∧ rest = [])
  | .punctuator sign => spelling = sign.spelling ∧
    ∀ p : Punctuator, p.spelling <+: spelling ++ rest → p.spelling.length ≤ spelling.length
  | .other c => spelling = [c] ∧ Text.isBlank c = false ∧ Text.startsIdentifier c = false ∧
    Text.isDigit c = false ∧ ¬ (c = '"' ∨ c = '\'') ∧
    ∀ p : Punctuator, ¬ p.spelling <+: spelling ++ rest

/-! ## One token -/

/-- A digit is no blank. -/
theorem not_isBlank_of_isDigit (hc : Text.isDigit c = true) : Text.isBlank c = false := by
  cases hblank : Text.isBlank c with
  | false => rfl
  | true =>
    simp only [Text.isBlank, Bool.or_eq_true, beq_iff_eq] at hblank
    rcases hblank with (((rfl | rfl) | rfl) | rfl) | rfl <;> cases hc

/-- A letter with all that goes on as an identifier is written as one. -/
theorem isWritten_identifier {ds : List Char} (hc : Text.startsIdentifier c = true)
    (hds : (ds ++ rest).takeWhile Text.continuesIdentifier = ds) :
    IsWritten (.identifier (String.ofList (c :: ds))) (c :: ds) rest := by
  obtain ⟨hword, hrest⟩ := Text.takeWhile_append_eq_iff.mp hds
  refine ⟨String.toList_ofList.symm, ?_, hrest⟩
  rw [Text.isIdentifier, hc, Bool.true_and]
  exact List.all_eq_true.mpr hword

/-- A digit with all letters and digits behind it is written as a number. -/
theorem isWritten_number {ds : List Char} (hc : Text.isDigit c = true)
    (hds : (ds ++ rest).takeWhile Text.isAlphanumeric = ds) :
    IsWritten (.number (String.ofList (c :: ds))) (c :: ds) rest := by
  obtain ⟨hrun, hrest⟩ := Text.takeWhile_append_eq_iff.mp hds
  refine ⟨String.toList_ofList.symm, ?_, hrest⟩
  rw [Text.isRun, hc, Bool.true_and]
  exact List.all_eq_true.mpr hrun

/-- A quoted text goes on up to the next quote, or to the end of the line. -/
theorem isWritten_quoted {ds : List Char} (hc : c = '"' ∨ c = '\'')
    (hds : (ds ++ rest).takeWhile (· ≠ c) ++
      ((ds ++ rest).drop ((ds ++ rest).takeWhile (· ≠ c)).length).take 1 = ds) :
    IsWritten (.quoted (String.ofList ((ds ++ rest).takeWhile (· ≠ c)))) (c :: ds) rest := by
  have htext := Text.takeWhile_append_drop (· ≠ c) (ds ++ rest)
  have hnot : c ∉ (ds ++ rest).takeWhile (· ≠ c) := fun hmem => by
    simpa using List.all_eq_true.mp List.all_takeWhile c hmem
  generalize hbody : (ds ++ rest).takeWhile (· ≠ c) = body at *
  refine ⟨c, hc, by simpa using hnot, ?_⟩
  cases hdrop : (ds ++ rest).drop body.length with
  | nil =>
    rw [hdrop, List.take_nil, List.append_nil] at hds
    rw [hdrop, List.append_nil, hds] at htext
    exact .inr ⟨by rw [String.toList_ofList, hds], List.self_eq_append_right.mp htext⟩
  | cons d more =>
    obtain rfl : d = c := by
      rw [← hbody] at hdrop
      simpa using Text.not_of_drop_takeWhile hdrop
    rw [hdrop, List.take_succ_cons, List.take_zero] at hds
    exact .inl (by rw [String.toList_ofList, List.cons_append, hds])

/-- The first token of a text is written at its start. -/
theorem isWritten_of_spells (h : Spells token spelling rest) : IsWritten token spelling rest := by
  obtain ⟨c, ds, rfl, hblank, hfirst⟩ := h
  unfold first at hfirst
  split at hfirst
  · rename_i hc
    obtain ⟨rfl, hword⟩ := Prod.mk.inj hfirst
    have hds := (List.cons.inj hword).2
    rw [hds]
    exact isWritten_identifier hc hds
  split at hfirst
  · rename_i hc
    obtain ⟨rfl, hrun⟩ := Prod.mk.inj hfirst
    have hds := (List.cons.inj hrun).2
    rw [hds]
    exact isWritten_number hc hds
  split at hfirst
  · rename_i hc
    obtain ⟨rfl, hquoted⟩ := Prod.mk.inj hfirst
    exact isWritten_quoted hc (List.cons.inj hquoted).2
  split at hfirst
  · rename_i sign hsign
    obtain ⟨rfl, hspelling⟩ := Prod.mk.inj hfirst
    refine ⟨hspelling.symm, fun p hp => ?_⟩
    rw [← hspelling]
    exact Punctuator.length_le_of_leading? hsign hp
  · rename_i hword hdigit hquote _ hnone
    obtain ⟨rfl, hspelling⟩ := Prod.mk.inj hfirst
    refine ⟨hspelling.symm, hblank, by simpa using hword, by simpa using hdigit, hquote, ?_⟩
    exact Punctuator.leading?_eq_none_iff.mp hnone

/-- A run of letters and digits is a number, if nothing behind goes on with it. -/
theorem spells_number {text : String} (htext : Text.isRun text.toList)
    (hrest : ∀ d ∈ rest.head?, Text.isAlphanumeric d = false) :
    Spells (.number text) text.toList rest := by
  cases hcs : text.toList with
  | nil => rw [hcs] at htext; cases htext
  | cons c ds =>
    rw [hcs] at htext
    obtain ⟨hc, hds⟩ := Bool.and_eq_true_iff.mp htext
    have hrun : (ds ++ rest).takeWhile (fun d => Text.isLetter d || Text.isDigit d) = ds :=
      Text.takeWhile_append_of_ends (List.all_eq_true.mp hds) hrest
    refine ⟨c, ds, rfl, not_isBlank_of_isDigit hc, ?_⟩
    simp only [first, Text.not_startsIdentifier_of_isDigit hc, hc, if_true, hrun, ← hcs,
      String.ofList_toList]
    rfl

/-- A quote takes everything up to the next one of its kind, or to the end of the line. -/
theorem first_of_quote (hc : c = '"' ∨ c = '\'') (cs : List Char) :
    first c cs = (.quoted (String.ofList (cs.takeWhile (· ≠ c))),
      c :: cs.takeWhile (· ≠ c) ++ (cs.drop (cs.takeWhile (· ≠ c)).length).take 1) := by
  have hword : Text.startsIdentifier c = false := by rcases hc with rfl | rfl <;> rfl
  have hdigit : Text.isDigit c = false := by rcases hc with rfl | rfl <;> rfl
  rw [first, if_neg (by simp [hword]), if_neg (by simp [hdigit]), if_pos hc]

/-- A text in quotes of one kind is a token, and so is one that is not closed if the line ends
there. -/
theorem spells_quoted {text : String} (hc : c = '"' ∨ c = '\'') (htext : c ∉ text.toList)
    (hspelling : spelling = c :: text.toList ++ [c] ∨ spelling = c :: text.toList ∧ rest = []) :
    Spells (.quoted text) spelling rest := by
  have hblank : Text.isBlank c = false := by rcases hc with rfl | rfl <;> rfl
  rcases hspelling with rfl | ⟨rfl, rfl⟩
  · have hbody : (text.toList ++ c :: rest).takeWhile (· ≠ c) = text.toList :=
      Text.takeWhile_ne_append htext (by simp)
    refine ⟨c, text.toList ++ [c], rfl, hblank, ?_⟩
    rw [List.append_assoc, List.singleton_append, first_of_quote hc, hbody, List.drop_left]
    simp
  · have hbody : (text.toList ++ []).takeWhile (· ≠ c) = text.toList :=
      Text.takeWhile_ne_append htext (by simp)
    refine ⟨c, text.toList, rfl, hblank, ?_⟩
    rw [first_of_quote hc, hbody, List.append_nil, List.drop_length]
    simp

/-- Whatever is written as a token is the first token of the text that starts with it. -/
theorem spells_of_isWritten (h : IsWritten token spelling rest) : Spells token spelling rest := by
  cases token with
  | identifier name =>
    obtain ⟨rfl, hname, hrest⟩ := h
    exact spells_identifier hname hrest
  | number text =>
    obtain ⟨rfl, htext, hrest⟩ := h
    exact spells_number htext hrest
  | quoted text =>
    obtain ⟨quote, hquote, htext, hspelling⟩ := h
    exact spells_quoted hquote htext hspelling
  | punctuator sign =>
    obtain ⟨rfl, hlongest⟩ := h
    exact spells_punctuator sign
      (Punctuator.leading?_eq_some_iff.mpr ⟨List.prefix_append _ _, hlongest⟩)
  | other c =>
    obtain ⟨rfl, hblank, hword, hdigit, hquote, hnone⟩ := h
    have hsign : Punctuator.leading? (c :: rest) = none :=
      Punctuator.leading?_eq_none_iff.mpr hnone
    refine ⟨c, [], rfl, hblank, ?_⟩
    rw [first, if_neg (by simp [hword]), if_neg (by simp [hdigit]), if_neg hquote,
      List.nil_append, hsign]

/-! ## All tokens -/

/-- Tokens are laid over a text that starts a number of bytes behind the start of a line: blanks
are before each token and behind the last one, and nothing else is. -/
def Tiles (offset : Nat) : List Placed → List Char → Prop
  | [], cs => ∀ c ∈ cs, Text.isBlank c = true
  | t :: tokens, cs => ∃ blanks spelling, (∀ c ∈ blanks, Text.isBlank c = true) ∧
    cs = blanks ++ (spelling ++ t.rest) ∧ t.offset = offset + byteLength blanks ∧
    IsWritten t.token spelling t.rest ∧ Tiles (t.offset + byteLength spelling) tokens t.rest

/-- No token is spelled by nothing, so that each takes up some of the line. -/
theorem Spells.ne_nil (h : Spells token spelling rest) : spelling ≠ [] := by
  obtain ⟨c, ds, rfl, -⟩ := h
  exact List.cons_ne_nil c ds

/-- The spelling of a token starts with the character that it was told by and goes on with what
follows in the text. -/
theorem exists_spelling (c : Char) (cs : List Char) :
    ∃ ds, (first c cs).2 = c :: ds ∧ ds <+: cs := by
  unfold first
  split
  · exact ⟨_, rfl, List.takeWhile_prefix _⟩
  split
  · exact ⟨_, rfl, List.takeWhile_prefix _⟩
  split
  · refine ⟨_, rfl, ?_⟩
    have htext := Text.takeWhile_append_drop (· ≠ c) cs
    conv => rhs; rw [← htext]
    exact (List.prefix_append_right_inj _).mpr (List.take_prefix _ _)
  split
  · rename_i sign hsign
    have hspelling := Punctuator.prefix_of_leading? hsign
    cases hcs : sign.spelling with
    | nil => cases sign <;> cases hcs
    | cons d ds =>
      rw [hcs, List.cons_prefix_cons] at hspelling
      exact ⟨ds, by rw [hspelling.1], hspelling.2⟩
  · exact ⟨[], rfl, List.nil_prefix⟩

/-- Every text that starts with no blank starts with a token. -/
theorem exists_spells (hc : Text.isBlank c = false) (cs : List Char) :
    ∃ token spelling rest, c :: cs = spelling ++ rest ∧ Spells token spelling rest := by
  obtain ⟨ds, hspelling, rest, rfl⟩ := exists_spelling c cs
  exact ⟨(first c (ds ++ rest)).1, c :: ds, rest, rfl, c, ds, rfl, hc, Prod.ext rfl hspelling⟩

/-- Induction on a text that takes one blank or one token off it in each step. -/
theorem induction_on_tokens {motive : Nat → List Char → Prop} (nil : ∀ offset, motive offset [])
    (blank : ∀ offset c cs, Text.isBlank c = true → motive (offset + 1) cs →
      motive offset (c :: cs))
    (spells : ∀ offset token spelling rest, Spells token spelling rest →
      motive (offset + byteLength spelling) rest → motive offset (spelling ++ rest))
    (offset : Nat) (cs : List Char) : motive offset cs := by
  induction hlength : cs.length using Nat.strongRecOn generalizing offset cs with
  | ind n ih =>
    cases cs with
    | nil => exact nil offset
    | cons c cs =>
      cases hc : Text.isBlank c with
      | true => exact blank offset c cs hc (ih cs.length (by simp [← hlength]) _ cs rfl)
      | false =>
        obtain ⟨token, spelling, rest, hcs, hspells⟩ := exists_spells hc cs
        have hshorter : rest.length < n := by
          have hpositive := List.length_pos_iff.mpr hspells.ne_nil
          rw [← hlength, hcs, List.length_append]
          omega
        rw [hcs]
        exact spells offset token spelling rest hspells (ih _ hshorter _ rest rfl)

/-- A count of bytes that starts at some number adds to it. -/
theorem byteLength_eq_add (n : Nat) (cs : List Char) :
    cs.foldl (fun n c => n + c.utf8Size) n = n + byteLength cs := by
  induction cs generalizing n with
  | nil => rfl
  | cons c cs ih =>
    rw [byteLength, List.foldl_cons, List.foldl_cons, ih, ih (0 + _)]
    omega

/-- No characters take up no bytes. -/
@[simp] theorem byteLength_nil : byteLength [] = 0 := rfl

/-- The bytes of the first character and those of the others. -/
@[simp] theorem byteLength_cons (c : Char) (cs : List Char) :
    byteLength (c :: cs) = c.utf8Size + byteLength cs := by
  rw [byteLength, List.foldl_cons, byteLength_eq_add, Nat.zero_add]

/-- Texts one behind the other take up the bytes of both. -/
@[simp] theorem byteLength_append (cs ds : List Char) :
    byteLength (cs ++ ds) = byteLength cs + byteLength ds := by
  rw [byteLength, List.foldl_append, byteLength_eq_add]
  rfl

/-- Bytes are counted as they are stored. -/
theorem utf8ByteSize_ofList (cs : List Char) : (String.ofList cs).utf8ByteSize = byteLength cs := by
  induction cs with
  | nil => rfl
  | cons c cs ih =>
    have hcons : String.ofList (c :: cs) = String.singleton c ++ String.ofList cs := by
      rw [String.singleton_eq_ofList, ← String.ofList_append, List.singleton_append]
    rw [hcons, String.utf8ByteSize_append, String.utf8ByteSize_singleton, ih, byteLength_cons]

/-- A blank is one byte. -/
theorem utf8Size_of_isBlank (hc : Text.isBlank c = true) : c.utf8Size = 1 := by
  simp only [Text.isBlank, Bool.or_eq_true, beq_iff_eq] at hc
  rcases hc with (((rfl | rfl) | rfl) | rfl) | rfl <;> rfl

/-- Blanks may be put before the first token. -/
theorem Tiles.cons_blank {tokens : List Placed} (hc : Text.isBlank c = true)
    (h : Tiles (offset + 1) tokens cs) : Tiles offset tokens (c :: cs) := by
  cases tokens with
  | nil => exact List.forall_mem_cons.mpr ⟨hc, h⟩
  | cons t tokens =>
    obtain ⟨blanks, spelling, hblanks, rfl, hoffset, hwritten, hrest⟩ := h
    refine ⟨c :: blanks, spelling, List.forall_mem_cons.mpr ⟨hc, hblanks⟩, rfl, ?_, hwritten, hrest⟩
    rw [hoffset, byteLength_cons, utf8Size_of_isBlank hc, Nat.add_assoc]

/-- Blanks in front of a text only move its tokens by their bytes. -/
theorem allFrom_blanks {blanks : List Char} (offset : Nat)
    (hblanks : ∀ c ∈ blanks, Text.isBlank c = true) (cs : List Char) :
    allFrom offset [] (blanks ++ cs) = allFrom (offset + byteLength blanks) [] cs := by
  induction blanks generalizing offset with
  | nil => rfl
  | cons c blanks ih =>
    obtain ⟨hc, hblanks⟩ := List.forall_mem_cons.mp hblanks
    rw [List.cons_append, allFrom_blank hc, ih (offset + 1) hblanks, byteLength_cons,
      utf8Size_of_isBlank hc, Nat.add_assoc]

/-- The tokens of a text are laid over it. -/
theorem tiles_allFrom (offset : Nat) (cs : List Char) : Tiles offset (allFrom offset [] cs) cs := by
  induction offset, cs using induction_on_tokens with
  | nil offset =>
    rw [allFrom]
    exact List.forall_mem_nil _
  | blank offset c cs hc ih =>
    rw [allFrom_blank hc]
    exact ih.cons_blank hc
  | spells offset token spelling rest h ih =>
    rw [allFrom_of_spells offset h]
    exact ⟨[], spelling, List.forall_mem_nil _, rfl, rfl, isWritten_of_spells h, ih⟩

/-- Only the tokens of a text can be laid over it. -/
theorem Tiles.eq_allFrom {tokens : List Placed} (h : Tiles offset tokens cs) :
    tokens = allFrom offset [] cs := by
  induction tokens generalizing offset cs with
  | nil =>
    have hblanks := allFrom_blanks offset h []
    rw [List.append_nil, allFrom] at hblanks
    exact hblanks.symm
  | cons t tokens ih =>
    obtain ⟨blanks, spelling, hblanks, rfl, hoffset, hwritten, hrest⟩ := h
    rw [allFrom_blanks offset hblanks, allFrom_of_spells _ (spells_of_isWritten hwritten),
      ← hoffset, ← ih hrest]

/-- The tokens that can be laid over a text are those that it is cut into. -/
theorem tiles_iff {tokens : List Placed} :
    Tiles offset tokens cs ↔ allFrom offset [] cs = tokens :=
  ⟨fun h => h.eq_allFrom.symm, fun h => h ▸ tiles_allFrom offset cs⟩

/-! ## Places -/

/-- A token stands in a line where its offset says: behind as many bytes of the line. -/
def Stands (cs : List Char) (t : Placed) : Prop :=
  ∃ before spelling, cs = before ++ (spelling ++ t.rest) ∧
    t.offset = (String.ofList before).utf8ByteSize ∧ IsWritten t.token spelling t.rest

/-- Tokens that are laid over the end of a line stand in it one behind the other. -/
theorem Tiles.stands {tokens : List Placed} {before : List Char}
    (h : Tiles (byteLength before) tokens cs) : ∀ t ∈ tokens, Stands (before ++ cs) t := by
  induction tokens generalizing before cs with
  | nil => exact List.forall_mem_nil _
  | cons t tokens ih =>
    obtain ⟨blanks, spelling, -, rfl, hoffset, hwritten, hrest⟩ := h
    refine List.forall_mem_cons.mpr ⟨⟨before ++ blanks, spelling, ?_, ?_, hwritten⟩, ?_⟩
    · rw [List.append_assoc]
    · rw [hoffset, utf8ByteSize_ofList, byteLength_append]
    · have hplace :
          t.offset + byteLength spelling = byteLength (before ++ (blanks ++ spelling)) := by
        rw [hoffset, byteLength_append, byteLength_append]
        omega
      rw [hplace] at hrest
      simpa using ih hrest

/-- The numbers of a directive line are runs of letters and digits. So no sign is ever part of a
number that a condition reads. -/
theorem isRun_of_mem_all {text : String} (h : ⟨offset, .number text, rest⟩ ∈ all cs) :
    Text.isRun text.toList := by
  have htiles : Tiles (byteLength []) (all cs) cs := tiles_allFrom 0 cs
  obtain ⟨_, _, -, -, rfl, hrun, -⟩ := htiles.stands _ h
  exact hrun

/-- Every character takes up at least a byte. -/
theorem byteLength_pos (h : cs ≠ []) : 0 < byteLength cs := by
  cases cs with
  | nil => exact absurd rfl h
  | cons c cs =>
    rw [byteLength_cons]
    exact Nat.add_pos_left c.utf8Size_pos _

/-- No token lies before the start of the text. -/
theorem Tiles.offset_le {tokens : List Placed} (h : Tiles offset tokens cs) :
    ∀ t ∈ tokens, offset ≤ t.offset := by
  induction tokens generalizing offset cs with
  | nil => exact List.forall_mem_nil _
  | cons t tokens ih =>
    obtain ⟨blanks, spelling, -, -, hoffset, -, hrest⟩ := h
    have hfirst : offset ≤ t.offset := hoffset ▸ Nat.le_add_right _ _
    refine List.forall_mem_cons.mpr ⟨hfirst, fun u hu => ?_⟩
    have hlater := ih hrest u hu
    omega

/-- No token lies behind the end of the text. -/
theorem Tiles.offset_lt {tokens : List Placed} (h : Tiles offset tokens cs) :
    ∀ t ∈ tokens, t.offset < offset + byteLength cs := by
  induction tokens generalizing offset cs with
  | nil => exact List.forall_mem_nil _
  | cons t tokens ih =>
    obtain ⟨blanks, spelling, -, rfl, hoffset, hwritten, hrest⟩ := h
    have hpositive := byteLength_pos (spells_of_isWritten hwritten).ne_nil
    rw [byteLength_append, byteLength_append]
    refine List.forall_mem_cons.mpr ⟨by omega, fun u hu => ?_⟩
    have hlater := ih hrest u hu
    omega

/-- Each token stands behind the one before it. -/
theorem Tiles.pairwise_offset {tokens : List Placed} (h : Tiles offset tokens cs) :
    tokens.Pairwise (·.offset < ·.offset) := by
  induction tokens generalizing offset cs with
  | nil => exact List.Pairwise.nil
  | cons t tokens ih =>
    obtain ⟨blanks, spelling, -, -, -, hwritten, hrest⟩ := h
    have hpositive := byteLength_pos (spells_of_isWritten hwritten).ne_nil
    refine List.pairwise_cons.mpr ⟨fun u hu => ?_, ih hrest⟩
    have hlater := hrest.offset_le u hu
    omega

/-- The tokens of a line are laid over it from its start to its end, and no others are: between
them and around them there are blanks and nothing else. Their offsets increase, each of them is
the number of bytes in front of some character of the line, and the token is written there. -/
theorem all_tiles (cs : List Char) :
    (∀ tokens, Tiles 0 tokens cs ↔ all cs = tokens) ∧
      (all cs).Pairwise (·.offset < ·.offset) ∧ ∀ t ∈ all cs, Stands cs t := by
  have htiles : Tiles (byteLength []) (all cs) cs := tiles_allFrom 0 cs
  exact ⟨fun tokens => tiles_iff, htiles.pairwise_offset, htiles.stands⟩

/-- The place of a quoted text that is not closed, behind a character of two bytes. -/
theorem stands_unclosed :
    ⟨7, .quoted "b/", []⟩ ∈ all "é >=1u\"b/".toList ∧
      Stands "é >=1u\"b/".toList ⟨7, .quoted "b/", []⟩ := by
  have hmem : ⟨7, .quoted "b/", []⟩ ∈ all "é >=1u\"b/".toList := by decide +kernel
  exact ⟨hmem, (all_tiles "é >=1u\"b/".toList).2.2 _ hmem⟩

end DirectiveToken

end SmallC
