import SmallC.Directive
import SmallC.Proofs.Directive.Comments
import SmallC.Proofs.Text.Stretches
import SmallC.Proofs.Text.Trimming
import SmallC.Proofs.Text.Words

/-!
# Tokens of directives, one by one

The tokens of a line are cut off its start one after the other. A text that spells a token gives
this token whatever stands before it, and what comes behind it matters only where it could go on
with it.
-/

namespace SmallC

namespace DirectiveToken

variable {offset : Nat} {c : Char} {cs rest : List Char} {token : DirectiveToken}

/-- Tokens that were cut off before come before the others, and change nothing about them. -/
theorem allFrom_append (offset : Nat) (done before : List Placed) (cs : List Char) :
    allFrom offset (done ++ before) cs = before.reverse ++ allFrom offset done cs := by
  fun_induction allFrom offset done cs with
  | case1 => rw [allFrom, List.reverse_append]
  | case2 offset done c cs hc ih => rw [allFrom, if_pos hc, ih]
  | case3 offset done c cs hc token spelling hfirst rest ih =>
    rw [allFrom, if_neg hc, hfirst]
    exact ih

/-- A blank is passed over as one byte. -/
theorem allFrom_blank (hc : Text.isBlank c) :
    allFrom offset [] (c :: cs) = allFrom (offset + 1) [] cs := by
  rw [allFrom, if_pos hc]

/-- A text is the next token of a line that goes on with `rest`. -/
def Spells (token : DirectiveToken) (cs rest : List Char) : Prop :=
  ∃ c ds, cs = c :: ds ∧ Text.isBlank c = false ∧ first c (ds ++ rest) = (token, cs)

/-- A token is put down with its offset and its rest, and the others come from there. -/
theorem allFrom_of_spells (offset : Nat) (h : Spells token cs rest) :
    allFrom offset [] (cs ++ rest) =
      ⟨offset, token, rest⟩ :: allFrom (offset + byteLength cs) [] rest := by
  obtain ⟨c, ds, rfl, hblank, hfirst⟩ := h
  have hdrop : (ds ++ rest).drop ((c :: ds).length - 1) = rest := List.drop_left
  rw [List.cons_append, allFrom, if_neg (by simp [hblank]), hfirst]
  simp only [hdrop]
  exact allFrom_append _ [] [_] rest

/-- No identifier starts with a blank. -/
theorem not_startsIdentifier_of_isBlank (hc : Text.isBlank c) :
    Text.startsIdentifier c = false := by
  simp only [Text.isBlank, Bool.or_eq_true, beq_iff_eq] at hc
  rcases hc with (((rfl | rfl) | rfl) | rfl) | rfl <;> rfl

/-- A name is an identifier, if nothing behind goes on with it. -/
theorem spells_identifier {name : String} (hname : Text.isIdentifier name.toList)
    (hrest : ∀ d ∈ rest.head?, Text.continuesIdentifier d = false) :
    Spells (.identifier name) name.toList rest := by
  cases hcs : name.toList with
  | nil => rw [hcs] at hname; cases hname
  | cons c ds =>
    rw [hcs] at hname
    obtain ⟨hc, hds⟩ := Bool.and_eq_true_iff.mp hname
    have hword : (ds ++ rest).takeWhile Text.continuesIdentifier = ds :=
      Text.takeWhile_append_of_ends (List.all_eq_true.mp hds) hrest
    refine ⟨c, ds, rfl, ?_, ?_⟩
    · cases hblank : Text.isBlank c with
      | false => rfl
      | true => rw [not_startsIdentifier_of_isBlank hblank] at hc; cases hc
    · simp only [first, hc, if_true, hword, ← hcs, String.ofList_toList]

/-- A punctuator is the next token where no longer one is. -/
theorem spells_punctuator (sign : Punctuator)
    (h : Punctuator.leading? (sign.spelling ++ rest) = some sign) :
    Spells (.punctuator sign) sign.spelling rest := by
  obtain ⟨c, ds, hspelling, hblank, hword, hdigit, hquote⟩ : ∃ c ds, sign.spelling = c :: ds ∧
      Text.isBlank c = false ∧ Text.startsIdentifier c = false ∧ Text.isDigit c = false ∧
      ¬ (c = '"' ∨ c = '\'') := by
    cases sign <;> exact ⟨_, _, rfl, by decide⟩
  rw [hspelling] at h ⊢
  refine ⟨c, ds, rfl, hblank, ?_⟩
  rw [first, if_neg (by simp [hword]), if_neg (by simp [hdigit]), if_neg hquote,
    ← List.cons_append, h, ← hspelling]

/-- Slashes and quotes do not go on with an identifier. -/
theorem not_continuesIdentifier_of_not_isPlain (hc : isPlain c = false) :
    Text.continuesIdentifier c = false := by
  simp only [isPlain, Bool.and_eq_false_iff, decide_eq_false_iff_not, Decidable.not_not] at hc
  rcases hc with (rfl | rfl) | rfl <;> rfl

/-- No comment starts among letters, digits and underscores. -/
theorem all_isPlain (hcs : ∀ c ∈ cs, Text.continuesIdentifier c) : cs.all isPlain := by
  refine List.all_eq_true.mpr fun c hc => ?_
  cases hplain : isPlain c with
  | true => rfl
  | false =>
    have hword := hcs c hc
    rw [not_continuesIdentifier_of_not_isPlain hplain] at hword
    cases hword

/-- An identifier has neither quotes nor slashes. -/
theorem isPlain_of_isIdentifier (hcs : Text.isIdentifier cs) : cs.all isPlain :=
  all_isPlain fun _ hc => Text.continuesIdentifier_of_mem hcs hc

end DirectiveToken

namespace Directive

open DirectiveToken

/-- The directive of a line is told by the identifier behind the hash. -/
theorem ofLine?_of_isIdentifier (name : String) (hname : Text.isIdentifier name.toList)
    (rest : List Char) :
    ofLine? ('#' :: (name.toList ++ ' ' :: rest)) =
      some (ofName name (allFrom (byteLength name.toList + 1) [] (stripComment rest))
        (' ' :: stripComment rest)) := by
  have hstrip : stripComment (name.toList ++ ' ' :: rest) =
      name.toList ++ ' ' :: stripComment rest := by
    rw [stripComment_append_of_plain (isPlain_of_isIdentifier hname),
      stripComment_cons_of_plain rfl]
  have htokens : all (name.toList ++ ' ' :: stripComment rest) =
      ⟨0, .identifier name, ' ' :: stripComment rest⟩ ::
        allFrom (byteLength name.toList + 1) [] (stripComment rest) := by
    rw [all, allFrom_of_spells 0 (spells_identifier hname (by simp; rfl)), allFrom_blank rfl,
      Nat.zero_add]
  rw [ofLine?, Text.trimStart_of_head? (by simp; rfl)]
  simp only [hstrip, htokens, ofTokens]

end Directive

end SmallC
