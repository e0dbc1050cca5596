import SmallC.DirectiveToken

/-!
# Comments of directive lines

A comment of a directive line starts at two slashes outside quotes and goes to the end of the
line. Whether a text is between quotes depends on all the quotes before it, so the rest of a line
is looked at together with the quote that is open before it.
-/

namespace SmallC.DirectiveToken

variable {q c d : Char} {quote : Option Char} {cs ds : List Char}

/-- The count of characters before a comment adds to whatever was counted already. -/
theorem commentStart_eq_add (quote : Option Char) (count : Nat) (cs : List Char) :
    commentStart quote count cs = count + commentStart quote 0 cs := by
  induction cs generalizing quote count with
  | nil => rfl
  | cons c cs ih =>
    unfold commentStart
    split
    · rw [ih, ih _ (0 + 1)]
      omega
    · split
      · rw [ih, ih _ (0 + 1)]
        omega
      split
      · rfl
      · rw [ih, ih _ (0 + 1)]
        omega

/-- The rest of a line without the comment at its end; `quote` is the quote that is open. -/
def stripFrom (quote : Option Char) (cs : List Char) : List Char :=
  cs.take (commentStart quote 0 cs)

/-- The quote that is open behind a character. -/
def quoteAfter (quote : Option Char) (c : Char) : Option Char :=
  match quote with
  | some q => if c = q then none else some q
  | none => if c = '"' ∨ c = '\'' then some c else none

/-- A comment starts at the character `c`, which `cs` comes behind. -/
def StartsComment (quote : Option Char) (c : Char) (cs : List Char) : Prop :=
  quote = none ∧ c = '/' ∧ cs.head? = some '/'

/-- Nothing is left from where a comment starts. -/
theorem stripFrom_of_startsComment (h : StartsComment quote c cs) :
    stripFrom quote (c :: cs) = [] := by
  obtain ⟨rfl, rfl, hcs⟩ := h
  rw [stripFrom, commentStart, if_neg (by decide), if_pos ⟨rfl, hcs⟩, List.take_zero]

/-- Any other character stays. -/
theorem stripFrom_cons (h : ¬ StartsComment quote c cs) :
    stripFrom quote (c :: cs) = c :: stripFrom (quoteAfter quote c) cs := by
  have hstart : commentStart quote 0 (c :: cs) = commentStart (quoteAfter quote c) (0 + 1) cs := by
    cases quote with
    | some q => rfl
    | none =>
      rw [commentStart, quoteAfter]
      split
      · rfl
      · rw [if_neg fun hc => h ⟨rfl, hc⟩]
  rw [stripFrom, hstart, commentStart_eq_add, Nat.zero_add, Nat.add_comm, List.take_succ_cons,
    stripFrom]

/-- Only a slash starts a comment. -/
theorem not_startsComment_of_ne (hc : c ≠ '/') : ¬ StartsComment quote c cs := fun h => hc h.2.1

/-- What comes behind a character that is no slash does not matter for whether a comment starts. -/
theorem startsComment_append_iff (hd : d ≠ '/') :
    StartsComment quote c (cs ++ d :: ds) ↔ StartsComment quote c cs := by
  cases cs with
  | nil => simp [StartsComment, hd]
  | cons => exact Iff.rfl

/-- Cutting a comment off adds no characters. -/
theorem mem_of_mem_stripComment (hc : c ∈ stripComment cs) : c ∈ cs := List.mem_of_mem_take hc

/-- A character that is neither a quote nor a slash. -/
def isPlain (c : Char) : Bool := c ≠ '"' && c ≠ '\'' && c ≠ '/'

/-- A character that is neither a slash nor a quote is kept, and does not change what is cut behind
it. -/
theorem stripComment_cons_of_plain (hc : isPlain c) (cs : List Char) :
    stripComment (c :: cs) = c :: stripComment cs := by
  simp only [isPlain, Bool.and_eq_true, decide_eq_true_eq] at hc
  obtain ⟨⟨hdouble, hsingle⟩, hslash⟩ := hc
  have hquote : quoteAfter none c = none := by simp [quoteAfter, hdouble, hsingle]
  have hstep := stripFrom_cons (not_startsComment_of_ne hslash : ¬ StartsComment none c cs)
  rwa [hquote] at hstep

/-- A text without slashes and quotes is kept as a whole. -/
theorem stripComment_append_of_plain (hcs : cs.all isPlain) (ds : List Char) :
    stripComment (cs ++ ds) = cs ++ stripComment ds := by
  induction cs with
  | nil => rfl
  | cons c cs ih =>
    obtain ⟨hc, hcs⟩ := Bool.and_eq_true_iff.mp hcs
    rw [List.cons_append, stripComment_cons_of_plain hc, ih hcs, List.cons_append]

/-- No comment starts inside quotes. -/
theorem not_startsComment_some : ¬ StartsComment (some q) c cs := fun h => nomatch h.1

/-- A text between quotes stays, whatever comes behind it. -/
theorem stripFrom_some_append (hcs : q ∉ cs) (ds : List Char) :
    stripFrom (some q) (cs ++ q :: ds) = cs ++ q :: stripFrom none ds := by
  induction cs with
  | nil =>
    rw [List.nil_append, stripFrom_cons not_startsComment_some, quoteAfter, if_pos rfl,
      List.nil_append]
  | cons c cs ih =>
    obtain ⟨hc, hcs⟩ := List.ne_and_not_mem_of_not_mem_cons hcs
    rw [List.cons_append, stripFrom_cons not_startsComment_some, quoteAfter, if_neg hc.symm,
      ih hcs, List.cons_append]

/-- A text behind a quote that is not closed stays. -/
theorem stripFrom_some_of_not_mem (hcs : q ∉ cs) : stripFrom (some q) cs = cs := by
  induction cs with
  | nil => rfl
  | cons c cs ih =>
    obtain ⟨hc, hcs⟩ := List.ne_and_not_mem_of_not_mem_cons hcs
    rw [stripFrom_cons not_startsComment_some, quoteAfter, if_neg hc.symm, ih hcs]

/-- Behind a text without a comment a character that is no slash stays. -/
theorem exists_stripFrom_append_of_eq (hd : d ≠ '/') (hcs : stripFrom quote cs = cs)
    (ds : List Char) :
    ∃ quote', stripFrom quote (cs ++ d :: ds) = cs ++ d :: stripFrom quote' ds := by
  -- every character may open or close a quote, so the quote is general in the induction
  induction cs generalizing quote with
  | nil => exact ⟨quoteAfter quote d, stripFrom_cons (not_startsComment_of_ne hd)⟩
  | cons c cs ih =>
    by_cases hcomment : StartsComment quote c cs
    · rw [stripFrom_of_startsComment hcomment] at hcs
      cases hcs
    · rw [stripFrom_cons hcomment] at hcs
      obtain ⟨quote', htail⟩ := ih (List.cons.inj hcs).2
      refine ⟨quote', ?_⟩
      rw [List.cons_append, stripFrom_cons (mt (startsComment_append_iff hd).mp hcomment), htail,
        List.cons_append]

/-- A comment that starts in a text is not ended by what comes behind the text. -/
theorem stripFrom_append_of_ne (hd : d ≠ '/') (hcs : stripFrom quote cs ≠ cs) (ds : List Char) :
    stripFrom quote (cs ++ d :: ds) = stripFrom quote cs := by
  induction cs generalizing quote with
  | nil => exact absurd rfl hcs
  | cons c cs ih =>
    rw [List.cons_append]
    by_cases hcomment : StartsComment quote c cs
    · rw [stripFrom_of_startsComment hcomment,
        stripFrom_of_startsComment ((startsComment_append_iff hd).mpr hcomment)]
    · rw [stripFrom_cons hcomment] at hcs ⊢
      rw [stripFrom_cons (mt (startsComment_append_iff hd).mp hcomment),
        ih fun heq => hcs (congrArg _ heq)]

end SmallC.DirectiveToken
