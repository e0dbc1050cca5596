import SmallC.Text.Split

/-!
# Cutting and joining

The pieces of a text are what stands between its separators: they have none themselves, and
have the characters of the text. Joining the pieces of a text gives the text back, and cutting
what was joined of pieces without separators gives the pieces back.
-/

namespace SmallC.Text

/-- No piece has a separator in it, if those done and the one begun have none. -/
theorem not_mem_of_mem_piecesFrom {separator : Char} {done : List (List Char)}
    {piece p cs : List Char} (hdone : ∀ q ∈ done, separator ∉ q) (hpiece : separator ∉ piece)
    (hp : p ∈ piecesFrom separator done piece cs) : separator ∉ p := by
  induction cs generalizing done piece with
  | nil =>
    rw [piecesFrom, List.mem_reverse] at hp
    rcases List.mem_cons.mp hp with rfl | hp
    · rwa [List.mem_reverse]
    · exact hdone p hp
  | cons c cs ih =>
    rw [piecesFrom] at hp
    split at hp
    · refine ih (List.forall_mem_cons.mpr ⟨?_, hdone⟩) List.not_mem_nil hp
      rwa [List.mem_reverse]
    · rename_i hc
      refine ih hdone (fun hmem => ?_) hp
      rcases List.mem_cons.mp hmem with heq | hmem
      · exact hc heq.symm
      · exact hpiece hmem

/-- Every character of a piece comes from the pieces done, the one begun or the text. -/
theorem mem_of_mem_piecesFrom {separator c : Char} {done : List (List Char)}
    {piece p cs : List Char} (hp : p ∈ piecesFrom separator done piece cs) (hc : c ∈ p) :
    (∃ q ∈ done, c ∈ q) ∨ c ∈ piece ∨ c ∈ cs := by
  induction cs generalizing done piece with
  | nil =>
    rw [piecesFrom, List.mem_reverse] at hp
    rcases List.mem_cons.mp hp with rfl | hp
    · exact .inr (.inl (List.mem_reverse.mp hc))
    · exact .inl ⟨p, hp, hc⟩
  | cons d cs ih =>
    rw [piecesFrom] at hp
    split at hp
    · rcases ih hp with ⟨q, hq, hcq⟩ | hnil | hcs
      · rcases List.mem_cons.mp hq with rfl | hq
        · exact .inr (.inl (List.mem_reverse.mp hcq))
        · exact .inl ⟨q, hq, hcq⟩
      · cases hnil
      · exact .inr (.inr (List.mem_cons_of_mem d hcs))
    · rcases ih hp with hdone | hpiece | hcs
      · exact .inl hdone
      · rcases List.mem_cons.mp hpiece with rfl | hpiece
        · exact .inr (.inr List.mem_cons_self)
        · exact .inr (.inl hpiece)
      · exact .inr (.inr (List.mem_cons_of_mem d hcs))

/-- A separator ends the piece that was begun. -/
theorem piecesFrom_append_separator {separator : Char} {p : List Char} (hp : separator ∉ p)
    (done : List (List Char)) (piece cs : List Char) :
    piecesFrom separator done piece (p ++ separator :: cs) =
      piecesFrom separator ((piece.reverse ++ p) :: done) [] cs := by
  induction p generalizing piece with
  | nil => rw [List.nil_append, piecesFrom, if_pos rfl, List.append_nil]
  | cons c p ih =>
    obtain ⟨hc, hp⟩ := List.ne_and_not_mem_of_not_mem_cons hp
    rw [List.cons_append, piecesFrom, if_neg (Ne.symm hc), ih hp, List.reverse_cons,
      List.append_assoc, List.singleton_append]

/-- Where there is no separator the piece goes on to the end. -/
theorem piecesFrom_of_not_mem {separator : Char} {cs : List Char} (hcs : separator ∉ cs)
    (done : List (List Char)) (piece : List Char) :
    piecesFrom separator done piece cs = done.reverse ++ [piece.reverse ++ cs] := by
  induction cs generalizing piece with
  | nil => rw [piecesFrom, List.reverse_cons, List.append_nil]
  | cons c cs ih =>
    obtain ⟨hc, hcs⟩ := List.ne_and_not_mem_of_not_mem_cons hcs
    rw [piecesFrom, if_neg (Ne.symm hc), ih hcs, List.reverse_cons, List.append_assoc,
      List.singleton_append]

/-- What stands behind the last separator is the last piece. -/
theorem piecesFrom_append_last {separator : Char} {last : List Char} (hlast : separator ∉ last)
    (done : List (List Char)) (piece cs : List Char) :
    piecesFrom separator done piece (cs ++ separator :: last) =
      piecesFrom separator done piece cs ++ [last] := by
  induction cs generalizing done piece with
  | nil => simp [piecesFrom, piecesFrom_of_not_mem hlast]
  | cons c cs ih =>
    simp only [List.cons_append, piecesFrom]
    split
    · exact ih _ _
    · exact ih _ _

/-- What is joined from pieces is cut into them again. -/
theorem piecesFrom_joined {separator : Char} {ps : List (List Char)} (hne : ps ≠ [])
    (hps : ∀ p ∈ ps, separator ∉ p) (done : List (List Char)) :
    piecesFrom separator done [] (joined separator ps) = done.reverse ++ ps := by
  induction ps generalizing done with
  | nil => exact absurd rfl hne
  | cons p ps ih =>
    obtain ⟨hp, hps⟩ := List.forall_mem_cons.mp hps
    cases ps with
    | nil => rw [joined, piecesFrom_of_not_mem hp, List.reverse_nil, List.nil_append]
    | cons q ps =>
      rw [joined, piecesFrom_append_separator hp, ih (List.cons_ne_nil q ps) hps, List.reverse_nil,
        List.nil_append, List.reverse_cons, List.append_assoc, List.singleton_append]

/-- Cutting undoes joining. -/
theorem pieces_joined {separator : Char} {ps : List (List Char)} (hne : ps ≠ [])
    (hps : ∀ p ∈ ps, separator ∉ p) : pieces separator (joined separator ps) = ps := by
  rw [pieces, piecesFrom_joined hne hps, List.reverse_nil, List.nil_append]

/-- The last two pieces may be joined first. -/
theorem joined_append_pair (separator : Char) (ps : List (List Char)) (p q : List Char) :
    joined separator (ps ++ [p, q]) = joined separator (ps ++ [p ++ separator :: q]) := by
  induction ps with
  | nil => rfl
  | cons r ps ih =>
    cases ps with
    | nil => rfl
    | cons s ps =>
      simp only [List.cons_append, joined] at ih ⊢
      rw [ih]

/-- Joining the pieces of a text gives back the text. -/
theorem joined_piecesFrom (separator : Char) (done : List (List Char)) (piece cs : List Char) :
    joined separator (piecesFrom separator done piece cs) =
      joined separator (done.reverse ++ [piece.reverse ++ cs]) := by
  induction cs generalizing done piece with
  | nil => rw [piecesFrom, List.reverse_cons, List.append_nil]
  | cons c cs ih =>
    rw [piecesFrom]
    by_cases hc : c = separator
    · rw [if_pos hc, ih, List.reverse_cons, List.append_assoc, List.singleton_append,
        List.reverse_nil, List.nil_append, joined_append_pair, hc]
    · rw [if_neg hc, ih, List.reverse_cons, List.append_assoc, List.singleton_append]

/-- Joining undoes cutting. -/
theorem joined_pieces (separator : Char) (cs : List Char) :
    joined separator (pieces separator cs) = cs := by
  rw [pieces, joined_piecesFrom]
  rfl

end SmallC.Text
