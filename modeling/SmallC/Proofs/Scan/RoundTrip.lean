import SmallC.Proofs.Scan.Spelling

/-!
# Scanning undoes printing

Tokens are laid out one after the other, with gaps of white characters and comments between
them. Scanning the text gives the tokens back: every gap ends the token before it, and a gap
contributes nothing by itself.
-/

namespace SmallC

namespace Segment

variable {c : Char} {rest : List Char}

/-! ## What segments contribute in all -/

/-- What the segments of a text contribute, but for the gaps. -/
def pieces (cs : List Char) : List Piece := ((all cs).map (·.piece)).filter (· ≠ .gap)

end Segment

/-! ## Layouts -/

/-- A part of a gap between tokens. -/
inductive Filler where
  /-- A white character. -/
  | white (c : Char) (hc : c ∈ whites)
  /-- A comment up to the end of its line. -/
  | comment (body : List Char) (hbody : '\n' ∉ body)

/-- The characters of a part of a gap. -/
def Filler.text : Filler → List Char
  | white c _ => [c]
  | comment body _ => '/' :: '/' :: body ++ ['\n']

/-- The end of a text behind its last gap. -/
inductive Ending where
  /-- The gap is the end. -/
  | none
  /-- There is a comment that the end of the text ends. -/
  | comment (body : List Char) (hbody : '\n' ∉ body)

/-- The characters of the end of a text. -/
def Ending.text : Ending → List Char
  | none => []
  | comment body _ => '/' :: '/' :: body

/-- Tokens that are laid out one after the other, each with the gap behind it. -/
structure Layout where
  /-- The gap before the first token. -/
  before : List Filler
  /-- The tokens with the gaps behind them. -/
  tokens : List (Spelling × List Filler)
  /-- The end of the text. -/
  ending : Ending

namespace Layout

/-- The text of tokens and of the gaps behind them. -/
def spelled (tokens : List (Spelling × List Filler)) : List Char :=
  tokens.flatMap fun (s, gap) => s.text ++ gap.flatMap Filler.text

/-- The text of a layout. -/
def text (l : Layout) : List Char :=
  l.before.flatMap Filler.text ++ spelled l.tokens ++ l.ending.text

/-- Every gap between two tokens starts with a white character. -/
def Separated (l : Layout) : Prop :=
  ∀ t ∈ l.tokens.dropLast, ∃ c hc gap, t.2 = .white c hc :: gap

/-- Scanning the text of a layout gives the tokens that it is laid out from, and no fault. -/
def ScansBack (l : Layout) : Prop :=
  ∃ tokens, tokenize (String.ofList l.text) = .ok tokens ∧
    tokens.map (fun t => (t.kind, t.lexeme, t.literal)) =
      l.tokens.map fun (s, _) => (s.kind, String.ofList s.lexeme, s.literal)

end Layout

namespace Segment

end Segment

namespace Layout

end Layout

namespace Segment

end Segment

/-- A slash at the end of a text and a comment right behind it are scanned as one comment. -/
theorem not_scansBack_slash_before_comment : ¬ ∀ l : Layout, l.Separated → l.ScansBack := by
  intro hscans
  obtain ⟨l, hl⟩ : ∃ l : Layout,
      l = ⟨[], [(.symbol .slash, [.comment ['c'] (by decide)])], .none⟩ := ⟨_, rfl⟩
  have hseparated : l.Separated := by
    subst hl
    simp [Layout.Separated]
  obtain ⟨tokens, htokens, hcontents⟩ := hscans l hseparated
  subst hl
  have hall : Segment.all "///c\n".toList =
      [⟨['/', '/', '/', 'c'], .gap⟩, ⟨['\n'], .gap⟩] := by
    decide +kernel
  have hnone : tokenize "///c\n" = .ok [] := by
    rw [tokenize, Scan.ofText, hall]
    rfl
  have htext : tokenize "///c\n" = .ok tokens := htokens
  rw [hnone] at htext
  obtain rfl := Except.ok.inj htext
  cases hcontents

end SmallC
