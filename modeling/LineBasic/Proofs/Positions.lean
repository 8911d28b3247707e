import Mathlib.Algebra.Order.Ring.Nat
import LineBasic.Text

/-
  LineBasic.Proofs.Positions — the line and the column of an offset.

  One character further is one column further, but behind a line feed it is the first column of the next line
  (`position_succ`). From this step alone:
  (1) Positions come in the order of their offsets, beyond the end of the text too (`position_before`).
  (2) One more character in front of a text moves its first line by a column, or all lines by one (`position_cons`), so a
      position is the number of a piece between line feeds and a place in that piece or at its end (`position_located`).
-/

namespace LineBasic

/-- The order of positions: by line, and in one line by column. -/
def Position.Before (a b : Position) : Prop := a.line < b.line ∨ a.line = b.line ∧ a.column < b.column

theorem Position.Before.trans {a b c : Position} (hab : a.Before b) (hbc : b.Before c) : a.Before c := by
  unfold Before at *
  omega

namespace Text

/-! ## One character further -/

theorem one_le_line (t : Text) (offset : Nat) : 1 ≤ (t.position offset).line := Nat.le_add_left 1 _

theorem one_le_column (t : Text) (offset : Nat) : 1 ≤ (t.position offset).column := Nat.le_add_left 1 _

theorem lineStart_le (t : Text) (offset : Nat) : t.lineStart offset ≤ offset := by
  have dropped := (List.dropWhile_sublist (· ≠ '\n') (l := (t.take offset).reverse)).length_le
  rw [List.length_reverse] at dropped
  exact Nat.le_trans dropped (List.length_take_le offset t)

theorem lineStart_succ (t : Text) (offset : Nat) :
    t.lineStart (offset + 1) = if t[offset]? = some '\n' then offset + 1 else t.lineStart offset := by
  unfold lineStart
  rw [List.take_add_one, List.reverse_append]
  cases h : t[offset]? with
  | none => simp
  | some c =>
    have inside : offset < t.length := (List.getElem?_eq_some_iff.mp h).1
    by_cases hc : c = '\n'
    · simp [hc, Nat.min_eq_left (Nat.le_of_lt inside)]
    · simp [hc]

theorem count_succ (t : Text) (offset : Nat) :
    (t.take (offset + 1)).count '\n' = (t.take offset).count '\n' + if t[offset]? = some '\n' then 1 else 0 := by
  rw [List.take_add_one, List.count_append]
  cases h : t[offset]? with
  | none => simp
  | some c => simp [List.count_singleton]

theorem position_zero (t : Text) : t.position 0 = ⟨1, 1⟩ := by
  simp [position, lineStart]

theorem position_succ (t : Text) (offset : Nat) :
    t.position (offset + 1) = if t[offset]? = some '\n' then ⟨(t.position offset).line + 1, 1⟩
      else ⟨(t.position offset).line, (t.position offset).column + 1⟩ := by
  have start := t.lineStart_le offset
  unfold position
  rw [lineStart_succ, count_succ]
  split
  · simp
  · simp
    omega

/-! ## (1) Order -/

theorem position_before_succ (t : Text) (offset : Nat) : (t.position offset).Before (t.position (offset + 1)) := by
  rw [position_succ]
  split
  · exact .inl (Nat.lt_succ_self _)
  · exact .inr ⟨rfl, Nat.lt_succ_self _⟩

theorem position_before (t : Text) {p q : Nat} (h : p < q) : (t.position p).Before (t.position q) := by
  induction h with
  | refl => exact t.position_before_succ p
  | step _ ih => exact ih.trans (t.position_before_succ _)

/-! ## (2) Pieces -/

theorem position_cons (c : Char) (t : Text) (offset : Nat) :
    position (c :: t) (offset + 1) =
      if c = '\n' then ⟨(t.position offset).line + 1, (t.position offset).column⟩
      else if (t.position offset).line = 1 then ⟨1, (t.position offset).column + 1⟩
      else t.position offset := by
  induction offset with
  | zero =>
    rw [position_succ, position_zero, position_zero]
    simp
  | succ offset ih =>
    have first := t.one_le_line offset
    rw [position_succ, ih, position_succ t, List.getElem?_cons_succ]
    -- The new character moves the columns of its own line only, and a line feed at the offset ends that line.
    grind

/-- The position is the number of a piece and a place in it, and `offset` counts the characters before that place, with
    one more between any two pieces. -/
def Locates (pieces : List Text) (place : Position) (offset : Nat) : Prop :=
  ∃ piece, pieces[place.line - 1]? = some piece ∧ place.column - 1 ≤ piece.length ∧
    ((pieces.take (place.line - 1)).map List.length).sum + (place.line - 1) + (place.column - 1) = offset

theorem Locates.behind_break {pieces : List Text} {place : Position} {offset : Nat} (h : Locates pieces place offset)
    (hl : 1 ≤ place.line) : Locates ([] :: pieces) ⟨place.line + 1, place.column⟩ (offset + 1) := by
  obtain ⟨piece, hp, inside, hsum⟩ := h
  have next : place.line + 1 - 1 = place.line - 1 + 1 := by omega
  refine ⟨piece, ?_, inside, ?_⟩
  · rw [next, List.getElem?_cons_succ]
    exact hp
  · rw [next, List.take_succ_cons, List.map_cons, List.sum_cons, List.length_nil]
    dsimp only
    omega

theorem Locates.behind_first {first : Text} {rest : List Text} {place : Position} {offset : Nat}
    (h : Locates (first :: rest) place offset) (hl : place.line = 1) (hc : 1 ≤ place.column) (c : Char) :
    Locates ((c :: first) :: rest) ⟨1, place.column + 1⟩ (offset + 1) := by
  obtain ⟨piece, hp, inside, hsum⟩ := h
  rw [hl] at hp hsum
  obtain rfl : first = piece := Option.some.inj hp
  refine ⟨c :: first, rfl, ?_, ?_⟩
  · rw [List.length_cons]
    dsimp only
    omega
  · simp at hsum ⊢
    omega

theorem Locates.behind_other {first : Text} {rest : List Text} {place : Position} {offset : Nat}
    (h : Locates (first :: rest) place offset) (hl : 1 < place.line) (c : Char) :
    Locates ((c :: first) :: rest) place (offset + 1) := by
  obtain ⟨piece, hp, inside, hsum⟩ := h
  obtain ⟨n, hn⟩ : ∃ n, place.line - 1 = n + 1 := Nat.exists_eq_add_one.mpr (Nat.sub_pos_of_lt hl)
  rw [hn, List.take_succ_cons, List.map_cons, List.sum_cons] at hsum
  rw [hn, List.getElem?_cons_succ] at hp
  refine ⟨piece, ?_, inside, ?_⟩
  · rw [hn, List.getElem?_cons_succ]
    exact hp
  · rw [hn, List.take_succ_cons, List.map_cons, List.sum_cons, List.length_cons]
    omega

theorem splitOn_cons (c : Char) (t : Text) :
    (c :: t).splitOn '\n' = if c = '\n' then [] :: t.splitOn '\n' else (t.splitOn '\n').modifyHead (c :: ·) := by
  rw [List.splitOn_eq_splitOnP, List.splitOn_eq_splitOnP, List.splitOnP_cons_eq_if_modifyHead]
  simp only [beq_iff_eq]

theorem position_located (t : Text) {offset : Nat} (h : offset ≤ t.length) :
    Locates (t.splitOn '\n') (t.position offset) offset := by
  induction t generalizing offset with
  | nil =>
    obtain rfl : offset = 0 := Nat.le_zero.mp h
    rw [position_zero]
    exact ⟨[], by simp⟩
  | cons c t ih =>
    cases offset with
    | zero =>
      obtain ⟨first, rest, hsplit⟩ := List.exists_cons_of_ne_nil (List.splitOn_ne_nil '\n' (c :: t))
      rw [position_zero, hsplit]
      exact ⟨first, by simp⟩
    | succ offset =>
      have located := ih (Nat.le_of_succ_le_succ h)
      rw [position_cons, splitOn_cons]
      by_cases hc : c = '\n'
      · rw [if_pos hc, if_pos hc]
        exact located.behind_break (one_le_line t offset)
      · obtain ⟨first, rest, hsplit⟩ := List.exists_cons_of_ne_nil (List.splitOn_ne_nil '\n' t)
        rw [hsplit] at located
        rw [if_neg hc, if_neg hc, hsplit, List.modifyHead_cons]
        by_cases hl : (position t offset).line = 1
        · rw [if_pos hl]
          exact located.behind_first hl (one_le_column t offset) c
        · rw [if_neg hl]
          exact located.behind_other (Nat.lt_of_le_of_ne (one_le_line t offset) (Ne.symm hl)) c

end Text

/-- Lines and columns count from 1, and a later offset is a later position, in the text and beyond its end. In the text
    the line is the number of a piece between line feeds, the column is a place in it or right behind it, and the offset
    counts all characters before that place, each line feed among them. -/
theorem position_exact (t : Text) :
    (∀ pos, 1 ≤ (t.position pos).line ∧ 1 ≤ (t.position pos).column) ∧
    (∀ p q, p < q → (t.position p).line < (t.position q).line ∨
      (t.position p).line = (t.position q).line ∧ (t.position p).column < (t.position q).column) ∧
    ∀ pos, pos ≤ t.length → ∃ piece, (t.splitOn '\n')[(t.position pos).line - 1]? = some piece ∧
      (t.position pos).column - 1 ≤ piece.length ∧
      (((t.splitOn '\n').take ((t.position pos).line - 1)).map List.length).sum + ((t.position pos).line - 1) +
        ((t.position pos).column - 1) = pos :=
  ⟨fun pos => ⟨t.one_le_line pos, t.one_le_column pos⟩, fun _ _ h => t.position_before h,
    fun _ h => t.position_located h⟩

/-- A line feed behind a carriage return, an empty line, and offsets at the end of the text and far beyond it. -/
theorem position_exact_breaks :
    let t : Text := "A\r\n\nB\rC".toList
    (4 < 20 ∧ t.position 4 = ⟨3, 1⟩ ∧ t.position 20 = ⟨3, 17⟩ ∧ (t.position 4).line = (t.position 20).line) ∧
      (2 < 3 ∧ t.position 2 = ⟨1, 3⟩ ∧ t.position 3 = ⟨2, 1⟩ ∧ (t.position 2).line < (t.position 3).line) ∧
      7 ≤ t.length ∧ ∃ piece, (t.splitOn '\n')[2]? = some piece ∧ 3 ≤ piece.length ∧
        (((t.splitOn '\n').take 2).map List.length).sum + 2 + 3 = 7 := by
  intro t
  obtain ⟨-, order, located⟩ := position_exact t
  have four : t.position 4 = ⟨3, 1⟩ := by decide
  have twenty : t.position 20 = ⟨3, 17⟩ := by decide
  have two : t.position 2 = ⟨1, 3⟩ := by decide
  have three : t.position 3 = ⟨2, 1⟩ := by decide
  have seven : t.position 7 = ⟨3, 4⟩ := by decide
  have short : 7 ≤ t.length := by decide
  refine ⟨⟨by decide, four, twenty, ?_⟩, ⟨by decide, two, three, ?_⟩, short, ?_⟩
  · rcases order 4 20 (by decide) with h | h
    · rw [four, twenty] at h
      exact absurd h (Nat.lt_irrefl 3)
    · exact h.1
  · rcases order 2 3 (by decide) with h | h
    · exact h
    · rw [two, three] at h
      exact absurd h.1 (by decide)
  · have exact_ := located 7 short
    rw [seven] at exact_
    exact exact_

end LineBasic
