import LineBasic.Proofs.Lexemes
import LineBasic.Proofs.Lines

/-
  LineBasic.Proofs.Layout — the exact frame of a source text.

  A layout is what a source text should be: rows of digits, blanks and a statement, a line break between any two of
  them, and at most one more behind the last. A gap is the first place, from left to right, at which a text stops being
  one. Both are said without `splitLines`:
  - every text is the text of a layout or has a gap (`layout_or_gap`);
  - the text of a layout is framed as the layout says (`frame_layout`);
  - a text with a gap is refused there, and the missing piece is all that is expected (`frame_gap`).
-/

namespace LineBasic.Framing

/-! ## Layouts and gaps -/

/-- A line by its pieces. -/
structure Row where
  digits : Text
  blanks : Text
  statement : Text
  numbered : Digits digits
  spaced : blanks ≠ [] ∧ ∀ c ∈ blanks, isBlank c = true
  begins : statement ≠ [] ∧ Stops isBlank statement
  unbroken : ∀ c ∈ statement, isBreak c = false

def Row.text (r : Row) : Text := r.digits ++ r.blanks ++ r.statement

/-- The line that a row makes at an offset. -/
def Row.framed (r : Row) (offset : Nat) : NumberedLine :=
  ⟨r.digits, offset + r.digits.length + r.blanks.length, r.statement⟩

inductive LineBreak where
  | crlf
  | cr
  | lf
  deriving DecidableEq, Repr

def LineBreak.text : LineBreak → Text
  | crlf => ['\r', '\n']
  | cr => ['\r']
  | lf => ['\n']

/-- The break is over before `t`: a line feed would belong to the carriage return before it. -/
def LineBreak.Before (b : LineBreak) (t : Text) : Prop := b = cr → t.head? ≠ some '\n'

/-- One or more rows with line breaks between them, and perhaps one at the end. -/
inductive Layout where
  | last (row : Row) (final : Option LineBreak)
  | line (row : Row) (ending : LineBreak) (rest : Layout)

namespace Layout

def text : Layout → Text
  | last row none => row.text
  | last row (some final) => row.text ++ final.text
  | line row ending rest => row.text ++ ending.text ++ rest.text

def rows : Layout → List Row
  | last row _ => [row]
  | line row _ rest => row :: rest.rows

/-- The lines of a layout that begins at `offset`. -/
def framed (offset : Nat) : Layout → List NumberedLine
  | last row _ => [row.framed offset]
  | line row ending rest => row.framed offset :: rest.framed (offset + (row.text ++ ending.text).length)

end Layout

/-- The piece of a row that is missing at the beginning of a text, and the offset at which it should begin. -/
inductive Lacks : Text → Nat → Wanted → Prop
  | number {t : Text} : Stops Char.isDigit t → Lacks t 0 .lineNumber
  | blanks {digits t : Text} : Digits digits → Stops Char.isDigit t → Stops isBlank t →
      Lacks (digits ++ t) digits.length .blanks
  /-- The text ends behind the blanks, or a line break comes. -/
  | statement {digits blanks t : Text} : Digits digits → (blanks ≠ [] ∧ ∀ c ∈ blanks, isBlank c = true) →
      (∀ c ∈ t.head?, isBreak c = true) → Lacks (digits ++ blanks ++ t) (digits.length + blanks.length) .statement

/-- The first piece that is missing in a text. All rows before it are complete. -/
inductive Gap : Text → Nat → Wanted → Prop
  | here {t : Text} {n : Nat} {piece : Wanted} : Lacks t n piece → Gap t n piece
  /-- Nothing is missing behind the break at the end of a text, so the break is not at the end. -/
  | later {t : Text} {n : Nat} {piece : Wanted} (row : Row) (ending : LineBreak) : t ≠ [] → ending.Before t →
      Gap t n piece → Gap (row.text ++ ending.text ++ t) ((row.text ++ ending.text).length + n) piece

/-! ## Lines -/

/-- The characters before the first line break. -/
def lineOf (t : Text) : Text := t.takeWhile fun c => !isBreak c

theorem isBreak_of_isDigit {c : Char} (h : c.isDigit = true) : isBreak c = false := by
  have large : '0'.toNat ≤ c.toNat := (Char.isDigit_iff_toNat.mp h).1
  unfold isBreak
  by_cases hr : c = '\r'
  · rw [hr] at large
    exact absurd large (by decide)
  · by_cases hn : c = '\n'
    · rw [hn] at large
      exact absurd large (by decide)
    · simp [hr, hn]

theorem isBlank_iff {c : Char} : isBlank c = true ↔ c = ' ' ∨ c = '\t' := by simp [isBlank]

theorem isBreak_of_isBlank {c : Char} (h : isBlank c = true) : isBreak c = false := by
  rcases isBlank_iff.mp h with rfl | rfl <;> decide

theorem isDigit_of_isBlank {c : Char} (h : isBlank c = true) : c.isDigit = false := by
  rcases isBlank_iff.mp h with rfl | rfl <;> decide

theorem lineOf_append {s : Text} (hs : ∀ c ∈ s, isBreak c = false) (t : Text) : lineOf (s ++ t) = s ++ lineOf t :=
  List.takeWhile_append_of_pos fun c hc => by rw [hs c hc]; rfl

theorem lineOf_cons {c : Char} (hc : isBreak c = false) (t : Text) : lineOf (c :: t) = c :: lineOf t := by
  simp [lineOf, hc]

theorem lineOf_break {c : Char} (hc : isBreak c = true) (t : Text) : lineOf (c :: t) = [] := by simp [lineOf, hc]

theorem stops_lineOf {p : Char → Bool} {t : Text} (h : Stops p t) : Stops p (lineOf t) := by
  cases t with
  | nil => exact h
  | cons c t =>
    cases hc : isBreak c with
    | true => simp [lineOf_break hc]
    | false => simpa [lineOf_cons hc] using h

theorem Row.unbroken_text (r : Row) : ∀ c ∈ r.text, isBreak c = false := by
  intro c hc
  unfold Row.text at hc
  rcases List.mem_append.mp hc with hc | hc
  · rcases List.mem_append.mp hc with hc | hc
    · exact isBreak_of_isDigit (r.numbered.2 c hc)
    · exact isBreak_of_isBlank (r.spaced.2 c hc)
  · exact r.unbroken c hc

theorem splitLines_unbroken {s : Text} (hs : ∀ c ∈ s, isBreak c = false) (o : Nat) : splitLines o s = [⟨o, s⟩] := by
  induction s generalizing o with
  | nil => rfl
  | cons c s ih =>
    have hc : isBreak c = false := hs c (by simp)
    have head : c ≠ '\r' := by
      rintro rfl
      cases hc
    rw [splitLines.eq_3 o c s (fun rest hr => absurd hr head), hc]
    rw [ih (fun d hd => hs d (by simp [hd])) (o + 1)]
    rfl

theorem splitLines_break (b : LineBreak) {t : Text} (ht : b.Before t) (o : Nat) :
    splitLines o (b.text ++ t) = ⟨o, []⟩ :: splitLines (o + b.text.length) t := by
  cases b with
  | crlf => rfl
  | lf => rfl
  | cr =>
    refine (splitLines.eq_3 o '\r' t fun rest _ hr => ht rfl ?_).trans rfl
    rw [hr]
    rfl

theorem splitLines_line {s : Text} (hs : ∀ c ∈ s, isBreak c = false) (b : LineBreak) {t : Text} (ht : b.Before t)
    (o : Nat) :
    splitLines o (s ++ b.text ++ t) = ⟨o, s⟩ :: splitLines (o + (s ++ b.text).length) t := by
  induction s generalizing o with
  | nil => exact splitLines_break b ht o
  | cons c s ih =>
    have hc : isBreak c = false := hs c (by simp)
    have head : c ≠ '\r' := by
      rintro rfl
      cases hc
    have length : o + 1 + (s ++ b.text).length = o + (c :: s ++ b.text).length := by
      simp only [List.cons_append, List.length_cons]
      omega
    rw [List.cons_append, List.cons_append, splitLines.eq_3 o c _ (fun rest hr => absurd hr head), hc]
    rw [ih (fun d hd => hs d (by simp [hd])) (o + 1), length]
    rfl

theorem splitLines_lineOf (o : Nat) (t : Text) : ∃ rest, splitLines o t = ⟨o, lineOf t⟩ :: rest := by
  fun_induction splitLines o t with
  | case1 => exact ⟨[], rfl⟩
  | case2 => exact ⟨_, rfl⟩
  | case3 o c rest _ hc =>
    rw [lineOf_break hc]
    exact ⟨_, rfl⟩
  | case4 o c rest _ hc ih =>
    obtain ⟨tail, hs⟩ := ih
    rw [hs, lineOf_cons (by simpa using hc)]
    exact ⟨tail, rfl⟩

/-- The lines of a text that begins at `offset`. -/
def linesFrom (offset : Nat) (t : Text) : List SourceLine := dropFinalEmpty (splitLines offset t)

theorem linesFrom_lineOf (o : Nat) (t : Text) : ∃ rest, linesFrom o t = ⟨o, lineOf t⟩ :: rest := by
  obtain ⟨rest, hs⟩ := splitLines_lineOf o t
  rw [linesFrom, hs]
  exact ⟨_, rfl⟩

theorem linesFrom_last {s : Text} (hs : ∀ c ∈ s, isBreak c = false) (o : Nat) : linesFrom o s = [⟨o, s⟩] := by
  rw [linesFrom, splitLines_unbroken hs]
  rfl

theorem linesFrom_final {s : Text} (hs : ∀ c ∈ s, isBreak c = false) (b : LineBreak) (o : Nat) :
    linesFrom o (s ++ b.text) = [⟨o, s⟩] := by
  have before : b.Before [] := fun _ => by simp
  rw [linesFrom, ← List.append_nil (s ++ b.text), splitLines_line hs b before]
  rfl

/-- Only a last line that is empty is left out, and lines that come from some text are not one empty line. -/
theorem dropFinalEmpty_cons (first : SourceLine) {second : SourceLine} {rest : List SourceLine}
    (h : rest ≠ [] ∨ second.text ≠ []) :
    dropFinalEmpty (first :: second :: rest) = first :: dropFinalEmpty (second :: rest) := by
  cases rest with
  | nil =>
    have : second.text ≠ [] := by simpa using h
    simp [dropFinalEmpty, this]
  | cons third rest =>
    simp only [dropFinalEmpty, List.getLast?_cons_cons, List.dropLast_cons_cons]
    split <;> rfl

theorem splitLines_not_empty {t : Text} (h : t ≠ []) (o : Nat) :
    ∃ first rest, splitLines o t = first :: rest ∧ (rest ≠ [] ∨ first.text ≠ []) := by
  have more : ∀ n k, splitLines n k ≠ [] := by
    intro n k
    obtain ⟨rest, hr⟩ := splitLines_lineOf n k
    simp [hr]
  fun_cases splitLines o t with
  | case1 => exact absurd rfl h
  | case2 => exact ⟨_, _, rfl, .inl (more _ _)⟩
  | case3 => exact ⟨_, _, rfl, .inl (more _ _)⟩
  | case4 c k =>
    obtain ⟨rest, hr⟩ := splitLines_lineOf (o + 1) k
    rw [hr]
    exact ⟨_, rest, rfl, .inr (List.cons_ne_nil c _)⟩

theorem linesFrom_line {s : Text} (hs : ∀ c ∈ s, isBreak c = false) (b : LineBreak) {t : Text} (ht : b.Before t)
    (hne : t ≠ []) (o : Nat) :
    linesFrom o (s ++ b.text ++ t) = ⟨o, s⟩ :: linesFrom (o + (s ++ b.text).length) t := by
  obtain ⟨first, rest, hsplit, hrest⟩ := splitLines_not_empty hne (o + (s ++ b.text).length)
  rw [linesFrom, splitLines_line hs b ht, linesFrom, hsplit]
  exact dropFinalEmpty_cons ⟨o, s⟩ hrest

/-! ## One line -/

theorem frameLine_row (r : Row) (o : Nat) : frameLine ⟨o, r.text⟩ = .ok (r.framed o) := by
  have blanks : Stops Char.isDigit (r.blanks ++ r.statement) := by
    obtain ⟨c, rest, hb⟩ := List.exists_cons_of_ne_nil r.spaced.1
    rw [hb]
    exact (stops_cons _ _ _).mpr (isDigit_of_isBlank (r.spaced.2 c (by simp [hb])))
  simp only [frameLine, Row.text, List.append_assoc]
  rw [takeWhile_run r.numbered.2 blanks, dropWhile_run r.numbered.2 blanks, takeWhile_run r.spaced.2 r.begins.2,
    dropWhile_run r.spaced.2 r.begins.2, if_neg r.numbered.1, if_neg r.spaced.1, if_neg r.begins.1]
  rfl

/-- A line without one of its pieces is refused where the piece should begin. -/
theorem frameLine_lacks {t : Text} {n : Nat} {piece : Wanted} (h : Lacks t n piece) (o : Nat) :
    frameLine ⟨o, lineOf t⟩ = .error (.wanting (o + n) [piece.describe]) := by
  cases h with
  | number ht =>
    simp only [frameLine]
    rw [(stops_lineOf ht).takeWhile, if_pos rfl]
    rfl
  | @blanks digits k hdigits hk hb =>
    rw [lineOf_append fun c hc => isBreak_of_isDigit (hdigits.2 c hc)]
    simp only [frameLine]
    rw [takeWhile_run hdigits.2 (stops_lineOf hk), dropWhile_run hdigits.2 (stops_lineOf hk), if_neg hdigits.1,
      (stops_lineOf hb).takeWhile, if_pos rfl]
  | @statement digits blanks k hdigits hblanks hk =>
    have empty : lineOf k = [] := by
      cases k with
      | nil => rfl
      | cons c k => exact lineOf_break (hk c rfl) k
    have stops : Stops Char.isDigit (blanks ++ []) := by
      obtain ⟨c, rest, hb⟩ := List.exists_cons_of_ne_nil hblanks.1
      rw [hb]
      exact (stops_cons _ _ _).mpr (isDigit_of_isBlank (hblanks.2 c (by simp [hb])))
    rw [List.append_assoc, lineOf_append fun c hc => isBreak_of_isDigit (hdigits.2 c hc),
      lineOf_append fun c hc => isBreak_of_isBlank (hblanks.2 c hc), empty]
    simp only [frameLine]
    rw [takeWhile_run hdigits.2 stops, dropWhile_run hdigits.2 stops, if_neg hdigits.1,
      takeWhile_run hblanks.2 (stops_nil _), dropWhile_run hblanks.2 (stops_nil _), if_neg hblanks.1, if_pos rfl,
      Nat.add_assoc]

/-- A text begins with a row, up to a line break or to its end, or lacks a piece of one. -/
theorem row_or_lacks (t : Text) :
    (∃ (row : Row) (k : Text), t = row.text ++ k ∧ ∀ c ∈ k.head?, isBreak c = true) ∨ ∃ n piece, Lacks t n piece := by
  obtain ⟨digits, t, rfl, hdigits, hstop⟩ := exists_run Char.isDigit t
  by_cases hd : digits = []
  · rw [hd]
    exact .inr ⟨_, _, .number hstop⟩
  obtain ⟨blanks, t, rfl, hblanks, hbegin⟩ := exists_run isBlank t
  by_cases hb : blanks = []
  · rw [hb] at hstop ⊢
    exact .inr ⟨_, _, .blanks ⟨hd, hdigits⟩ hstop hbegin⟩
  obtain ⟨statement, k, rfl, hstatement, hk⟩ := exists_run (fun c => !isBreak c) t
  have ends : ∀ c ∈ k.head?, isBreak c = true := fun c hc => by simpa using hk c hc
  by_cases hs : statement = []
  · rw [hs, List.nil_append, ← List.append_assoc]
    exact .inr ⟨_, _, .statement ⟨hd, hdigits⟩ ⟨hb, hblanks⟩ ends⟩
  · refine .inl ⟨⟨digits, blanks, statement, ⟨hd, hdigits⟩, ⟨hb, hblanks⟩, ⟨hs, ?_⟩, ?_⟩, k, ?_, ends⟩
    · obtain ⟨c, rest, hc⟩ := List.exists_cons_of_ne_nil hs
      simpa [hc, Stops] using hbegin
    · exact fun c hc => by simpa using hstatement c hc
    · simp [Row.text]

/-! ## All lines -/

theorem Layout.begins (l : Layout) : ∃ c k, l.text = c :: k ∧ c.isDigit = true := by
  have row : ∀ r : Row, ∃ c k, r.text = c :: k ∧ c.isDigit = true := by
    intro r
    obtain ⟨c, rest, hc⟩ := List.exists_cons_of_ne_nil r.numbered.1
    exact ⟨c, rest ++ r.blanks ++ r.statement, by simp [Row.text, hc], r.numbered.2 c (by simp [hc])⟩
  fun_cases Layout.text l with
  | case1 r => exact row r
  | case2 r =>
    obtain ⟨c, k, hc, hdigit⟩ := row r
    exact ⟨c, _, by rw [hc]; rfl, hdigit⟩
  | case3 r =>
    obtain ⟨c, k, hc, hdigit⟩ := row r
    exact ⟨c, _, by rw [hc]; rfl, hdigit⟩

theorem frame_layout_from (l : Layout) (o : Nat) : (linesFrom o l.text).mapM frameLine = .ok (l.framed o) := by
  induction l generalizing o with
  | last row final =>
    cases final with
    | none =>
      rw [Layout.text, linesFrom_last row.unbroken_text, List.mapM_cons, frameLine_row]
      rfl
    | some final =>
      rw [Layout.text, linesFrom_final row.unbroken_text, List.mapM_cons, frameLine_row]
      rfl
  | line row ending rest ih =>
    obtain ⟨c, k, hc, hdigit⟩ := rest.begins
    have before : ending.Before rest.text := by
      rintro - hn
      rw [hc] at hn
      cases hn
      cases hdigit
    rw [Layout.text, linesFrom_line row.unbroken_text ending before (by simp [hc]), List.mapM_cons, frameLine_row, ih]
    rfl

theorem frame_gap_from {t : Text} {n : Nat} {piece : Wanted} (h : Gap t n piece) (o : Nat) :
    (linesFrom o t).mapM frameLine = .error (.wanting (o + n) [piece.describe]) := by
  induction h generalizing o with
  | @here t n piece hl =>
    obtain ⟨rest, hr⟩ := linesFrom_lineOf o t
    rw [hr, List.mapM_cons, frameLine_lacks hl]
    rfl
  | later row ending hne hb _ ih =>
    rw [linesFrom_line row.unbroken_text ending hb hne, List.mapM_cons, frameLine_row, ih, Nat.add_assoc]
    rfl

/-- A line break at the beginning of a text, as long as it can be. -/
theorem exists_break {c : Char} (hc : isBreak c = true) (k : Text) :
    ∃ (b : LineBreak) (t : Text), c :: k = b.text ++ t ∧ b.Before t := by
  have either : c = '\r' ∨ c = '\n' := by simpa [isBreak] using hc
  rcases either with rfl | rfl
  · by_cases hk : k.head? = some '\n'
    · obtain ⟨t, rfl⟩ := List.head?_eq_some_iff.mp hk
      exact ⟨.crlf, t, rfl, fun h => nomatch h⟩
    · exact ⟨.cr, k, rfl, fun _ => hk⟩
  · exact ⟨.lf, k, rfl, fun h => nomatch h⟩

/-- Every text is laid out as it should be, or has a first place where it is not. -/
theorem layout_or_gap (t : Text) : (∃ l : Layout, l.text = t) ∨ ∃ n piece, Gap t n piece := by
  induction hlen : t.length using Nat.strongRecOn generalizing t with
  | _ length ih =>
  rcases row_or_lacks t with ⟨row, k, rfl, hk⟩ | ⟨n, piece, h⟩
  · cases k with
    | nil => exact .inl ⟨.last row none, by simp [Layout.text]⟩
    | cons c k =>
      obtain ⟨ending, rest, hb, hbefore⟩ := exists_break (hk c rfl) k
      rw [hb, ← List.append_assoc] at hlen ⊢
      by_cases hr : rest = []
      · exact .inl ⟨.last row (some ending), by simp [Layout.text, hr]⟩
      have shorter : rest.length < length := by
        rw [← hlen]
        have := List.length_pos_iff.mpr row.numbered.1
        simp [Row.text]
        omega
      rcases ih rest.length shorter rest rfl with ⟨l, rfl⟩ | ⟨n, piece, h⟩
      · exact .inl ⟨.line row ending l, rfl⟩
      · exact .inr ⟨_, _, .later row ending hr hbefore h⟩
  · exact .inr ⟨n, piece, .here h⟩

theorem frame_layout (l : Layout) : frame l.text = .ok (l.framed 0) := frame_layout_from l 0

theorem frame_gap {t : Text} {n : Nat} {piece : Wanted} (h : Gap t n piece) :
    frame t = .error (.wanting n [piece.describe]) := by
  have := frame_gap_from h 0
  rwa [Nat.zero_add] at this

-- A second break at the end is a line without a number, though the first one may stand there.
example : frame "10 END\r\n\r".toList = .error (.wanting 8 ["a line number"]) := by rfl

end LineBasic.Framing
