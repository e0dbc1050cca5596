import SmallC.Proofs.Scan.Places
import SmallC.Proofs.Text.Words

/-!
# Identifiers

An identifier that the scanner gives has only the characters that identifiers go on with.
-/

namespace SmallC

namespace Segment

variable {c : Char} {cs : List Char}

/-- If a segment is an identifier, it is spelled like one. -/
def NamesWell (s : Segment) : Prop :=
  match s.piece with
  | .token .identifier lexeme _ => ∀ d ∈ lexeme, Text.continuesIdentifier d
  | _ => True

/-- A token that is no identifier names nothing. -/
theorem namesWell_whole {kind : TokenKind} (hkind : kind ≠ .identifier)
    (literal : Option Literal) (text : List Char) : (whole kind literal text).NamesWell := by
  unfold NamesWell whole
  split
  · rename_i heq
    cases heq
    exact absurd rfl hkind
  · trivial

/-- A string names nothing. -/
theorem namesWell_string (cs : List Char) : (string cs).NamesWell := by
  unfold string
  dsimp only
  split <;> trivial

/-- A quote that closes a character or does not names nothing. -/
theorem namesWell_closing (start : List Char) (code : UInt64) (cs : List Char) :
    (closing start code cs).NamesWell := by
  fun_cases closing start code cs <;> trivial

/-- A character names nothing. -/
theorem namesWell_character (cs : List Char) : (character cs).NamesWell := by
  fun_cases character cs with
  | case6 => exact namesWell_closing _ _ _
  | case8 => exact namesWell_closing _ _ _
  | _ => trivial

/-- A number names nothing. -/
theorem namesWell_number (c : Char) (cs : List Char) : (number c cs).NamesWell := by
  unfold number wholeNumber
  dsimp only
  split
  · trivial
  split
  · split <;> trivial
  · trivial

/-- A word is a keyword or an identifier of letters, digits and underscores. -/
theorem namesWell_word (hc : Text.startsIdentifier c) (cs : List Char) : (word c cs).NamesWell := by
  unfold word
  dsimp only
  split
  · exact namesWell_whole (by simp) _ _
  · intro d hd
    rcases List.mem_cons.mp hd with rfl | hd
    · exact Text.continuesIdentifier_of_starts hc
    · exact List.all_eq_true.mp List.all_takeWhile d hd

/-- A symbol names nothing. -/
theorem namesWell_symbol (c : Char) (sign : Symbol) (cs : List Char) :
    (symbol c sign cs).NamesWell := by
  unfold symbol
  split <;> exact namesWell_whole (by simp) _ _

/-- Every segment that is an identifier is made of letters, digits and underscores. -/
theorem namesWell_first (c : Char) (cs : List Char) : (first c cs).NamesWell := by
  unfold first
  split
  · trivial
  split
  · trivial
  split
  · exact namesWell_string cs
  split
  · exact namesWell_character cs
  split
  · exact namesWell_number c cs
  split
  · rename_i hc
    exact namesWell_word hc cs
  split
  · exact namesWell_symbol c _ cs
  · trivial

end Segment

/-- The characters of the identifiers of a text. -/
theorem continuesIdentifier_of_tokenize {source : String} {tokens : List Token}
    (hsource : tokenize source = .ok tokens) {t : Token} (ht : t ∈ tokens)
    (hkind : t.kind = .identifier) : ∀ d ∈ t.lexeme.toList, Text.continuesIdentifier d := by
  rw [tokenize, Scan.result] at hsource
  split at hsource
  · obtain rfl := Except.ok.inj hsource
    rw [Scan.tokens_ofText] at ht
    obtain ⟨i, hi⟩ := List.mem_iff_getElem?.mp ht
    obtain ⟨earlier, s, later, hall, -, htoken⟩ := Segment.exists_segment_of_tokensBehind hi
    obtain ⟨c, rest, rfl, -⟩ := Segment.exists_first_of_all hall
    have hnames := Segment.namesWell_first c rest
    unfold Piece.token? at htoken
    split at htoken
    · rename_i kind lexeme literal hpiece
      obtain rfl := Option.some.inj htoken
      obtain rfl : kind = .identifier := hkind
      rw [String.toList_ofList]
      simpa only [Segment.NamesWell, hpiece] using hnames
    · cases htoken
  · cases hsource

/-- No identifier of a text has a slash in it. -/
theorem not_mem_identifier {source : String} {tokens : List Token}
    (hsource : tokenize source = .ok tokens) {t : Token} (ht : t ∈ tokens)
    (hkind : t.kind = .identifier) : '/' ∉ t.lexeme.toList := fun hmem =>
  absurd (continuesIdentifier_of_tokenize hsource ht hkind '/' hmem) (by decide)

end SmallC
