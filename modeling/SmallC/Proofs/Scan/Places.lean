import SmallC.Proofs.Scan.Tiling

/-!
# The places of tokens and faults

A token and a fault are placed at the first character of their segment. The scanner counts
lines and columns as it goes from segment to segment; here they are counted in the text
before the segment, all at once.
-/

namespace SmallC

/-- The position of the character that comes behind some characters: its line is one
more than the number of line feeds before it, its column one more than the number of
characters since the last of these. -/
def Position.behind (before : List Char) : Position :=
  .saturating (before.count '\n' + 1) ((before.reverse.takeWhile (· ≠ '\n')).length + 1)

namespace Cursor

/-- The counters after some characters, given in reverse order. -/
theorem after_reverse (cs : List Char) :
    start.after cs.reverse = ⟨cs.count '\n' + 1, (cs.takeWhile (· ≠ '\n')).length + 1⟩ := by
  induction cs with
  | nil => rfl
  | cons c cs ih =>
    have hnext : start.after (c :: cs).reverse = (start.after cs.reverse).next c := by
      rw [List.reverse_cons, after_append]
      rfl
    rw [hnext, ih, next]
    by_cases hc : c = '\n' <;> simp [hc]

/-- The counters after some characters: the line feeds among them, and the characters behind the
last of these. -/
theorem after_eq (before : List Char) : start.after before =
    ⟨before.count '\n' + 1, (before.reverse.takeWhile (· ≠ '\n')).length + 1⟩ := by
  have hcursor := after_reverse before.reverse
  rwa [List.reverse_reverse, List.count_reverse] at hcursor

/-- The position of the next character is the one that the text before it gives. -/
theorem position_after (before : List Char) :
    (start.after before).position = Position.behind before := by
  rw [after_eq]
  rfl

/-- Neither counter is above the number of characters before it and one. -/
theorem after_le (before : List Char) :
    (start.after before).line ≤ before.length + 1 ∧
      (start.after before).column ≤ before.length + 1 := by
  have hcolumn := (List.takeWhile_prefix (· ≠ '\n') (l := before.reverse)).length_le
  rw [List.length_reverse] at hcolumn
  rw [after_eq]
  exact ⟨Nat.succ_le_succ List.count_le_length, Nat.succ_le_succ hcolumn⟩

end Cursor

/-- The token that a piece gives at a position. -/
def Piece.token? (position : Position) : Piece → Option Token
  | .token kind lexeme literal => some ⟨kind, String.ofList lexeme, literal, position⟩
  | _ => none

/-- The fault that a piece gives at a position. -/
def Piece.fault? (position : Position) : Piece → Option Diagnostic
  | .fault reason => some (.spelling position reason)
  | _ => none

namespace Segment

/-- What segments contribute, each with the position of its first character, behind the
characters `before`. -/
def placed (before : List Char) : List Segment → List (Position × Piece)
  | [] => []
  | s :: rest => (Position.behind before, s.piece) :: placed (before ++ s.text) rest

/-- The tokens of segments behind the characters `before`. -/
def tokensBehind (before : List Char) (segments : List Segment) : List Token :=
  (placed before segments).filterMap fun (position, piece) => piece.token? position

/-- The faults of segments behind the characters `before`. -/
def faultsBehind (before : List Char) (segments : List Segment) : List Diagnostic :=
  (placed before segments).filterMap fun (position, piece) => piece.fault? position

/-- The tokens of segments are that of the first one, if it is a token, and those of the others. -/
theorem tokensBehind_cons (before : List Char) (s : Segment) (segments : List Segment) :
    tokensBehind before (s :: segments) =
      (s.piece.token? (.behind before)).toList ++ tokensBehind (before ++ s.text) segments := by
  simp only [tokensBehind, placed, List.filterMap_cons]
  cases s.piece.token? (.behind before) <;> simp

/-- The faults of segments are that of the first one, if it is a fault, and those of the others. -/
theorem faultsBehind_cons (before : List Char) (s : Segment) (segments : List Segment) :
    faultsBehind before (s :: segments) =
      (s.piece.fault? (.behind before)).toList ++ faultsBehind (before ++ s.text) segments := by
  simp only [faultsBehind, placed, List.filterMap_cons]
  cases s.piece.fault? (.behind before) <;> simp

variable {segments earlier later : List Segment} {s : Segment} {before cs : List Char} {t : Token}

/-- Each token is that of a segment. -/
theorem exists_segment_of_tokensBehind {i : Nat} (h : (tokensBehind before segments)[i]? = some t) :
    ∃ earlier s later, segments = earlier ++ s :: later ∧
      (tokensBehind before earlier).length = i ∧
      s.piece.token? (.behind (before ++ earlier.flatMap (·.text))) = some t := by
  induction segments generalizing before i with
  | nil => cases h
  | cons s segments ih =>
    rw [tokensBehind_cons] at h
    have hlater (j : Nat) (hj : (tokensBehind (before ++ s.text) segments)[j]? = some t)
        (hi : i = (s.piece.token? (.behind before)).toList.length + j) :
        ∃ earlier s' later, s :: segments = earlier ++ s' :: later ∧
          (tokensBehind before earlier).length = i ∧
          s'.piece.token? (.behind (before ++ earlier.flatMap (·.text))) = some t := by
      obtain ⟨earlier, s', later, rfl, hlength, htoken⟩ := ih hj
      refine ⟨s :: earlier, s', later, rfl, ?_, ?_⟩
      · rw [tokensBehind_cons, List.length_append, hlength, hi]
      · rwa [List.flatMap_cons, ← List.append_assoc]
    cases htoken : s.piece.token? (.behind before) with
    | none =>
      rw [htoken] at h hlater
      exact hlater i h (Nat.zero_add i).symm
    | some u =>
      rw [htoken] at h hlater
      cases i with
      | zero =>
        obtain rfl := Option.some.inj h
        exact ⟨[], s, segments, rfl, rfl, by simpa using htoken⟩
      | succ i => exact hlater i h (Nat.add_comm i 1)

/-- Each segment is the first one of what is left of the text. -/
theorem exists_first_of_all (h : all cs = earlier ++ s :: later) :
    ∃ c rest, s = first c rest ∧ cs = earlier.flatMap (·.text) ++ c :: rest := by
  induction cs using induction_on_rest generalizing earlier with
  | nil =>
    rw [all_nil] at h
    simp at h
  | cons c cs ih =>
    rw [all_cons] at h
    cases earlier with
    | nil =>
      obtain ⟨rfl, -⟩ := List.cons.inj h
      exact ⟨c, cs, rfl, rfl⟩
    | cons s' earlier =>
      obtain ⟨rfl, htail⟩ := List.cons.inj h
      obtain ⟨d, rest, rfl, hrest⟩ := ih htail
      refine ⟨d, rest, rfl, ?_⟩
      rw [List.flatMap_cons, List.append_assoc, ← hrest, (starts_first c cs).text_append_drop]

end Segment

namespace Scan

open Segment

/-- The tokens and faults that a segment adds. -/
theorem add_eq (s : Scan) (segment : Segment) :
    s.add segment = ⟨s.cursor.after segment.text,
      s.tokens ++ (segment.piece.token? s.cursor.position).toArray,
      s.faults ++ (segment.piece.fault? s.cursor.position).toArray⟩ := by
  unfold add
  cases segment.piece <;> simp [Piece.token?, Piece.fault?]

/-- Segments add their tokens and faults, if the counters are those of the characters
before them. -/
theorem foldl_add {before : List Char} {s : Scan} (hs : s.cursor = Cursor.start.after before)
    (segments : List Segment) :
    (segments.foldl add s).tokens.toList = s.tokens.toList ++ tokensBehind before segments ∧
      (segments.foldl add s).faults.toList = s.faults.toList ++ faultsBehind before segments := by
  induction segments generalizing before s with
  | nil => simp [tokensBehind, faultsBehind, placed]
  | cons segment segments ih =>
    have hposition : s.cursor.position = Position.behind before := by
      rw [hs, Cursor.position_after]
    have hcursor : (s.add segment).cursor = Cursor.start.after (before ++ segment.text) := by
      rw [add_eq, hs, Cursor.after_append]
    obtain ⟨htokens, hfaults⟩ := ih hcursor
    rw [List.foldl_cons, htokens, hfaults, add_eq, hposition, tokensBehind_cons,
      faultsBehind_cons]
    simp

/-- The counters behind some segments are those behind their characters. -/
theorem cursor_foldl_add (s : Scan) (segments : List Segment) :
    (segments.foldl add s).cursor = s.cursor.after (segments.flatMap (·.text)) := by
  induction segments generalizing s with
  | nil => rfl
  | cons segment segments ih =>
    rw [List.foldl_cons, ih, add_eq, List.flatMap_cons, Cursor.after_append]

/-- At no moment of a scan is a counter above the number of characters of the text and one. So
32 bits are enough for the counters wherever they are for that number. -/
theorem cursor_le {source : String} {earlier later : List Segment}
    (h : all source.toList = earlier ++ later) :
    (earlier.foldl add start).cursor.line ≤ source.toList.length + 1 ∧
      (earlier.foldl add start).cursor.column ≤ source.toList.length + 1 := by
  have hbefore : (earlier.flatMap (·.text)).length ≤ source.toList.length := by
    rw [← (tiles_all source.toList).flatMap_text, h, List.flatMap_append, List.length_append]
    exact Nat.le_add_right _ _
  obtain ⟨hline, hcolumn⟩ := Cursor.after_le (earlier.flatMap (·.text))
  rw [show (earlier.foldl add start).cursor = _ from cursor_foldl_add start earlier]
  exact ⟨Nat.le_trans hline (Nat.succ_le_succ hbefore),
    Nat.le_trans hcolumn (Nat.succ_le_succ hbefore)⟩

/-- The tokens that the scanner has collected at the end of a text. -/
theorem tokens_ofText (source : String) :
    (ofText source).tokens.toList = tokensBehind [] (all source.toList) :=
  (foldl_add rfl _).1

end Scan

end SmallC
