import LineBasic.Proofs.Layout

/-
  LineBasic.Proofs.Rearrangement — a program does not depend on how its source is laid out.

  Statements with different numbers may be put into the table in either order (`placeStatement_comm`). So the table is
  told by the statements of each number in their order (`tabulate_eq`), and a source text that keeps them for every
  number makes the same program with the same warnings (`ofSource_relaid`).
-/

namespace LineBasic

/-! ## The table -/

section Table

variable {m n : LineNumber} {s t : Statement}

/-- Two entries before the table stand in the order of their numbers, whichever came first. -/
theorem placeStatement_comm_before (h : m < n) {table : List TableEntry}
    (hm : ∀ u, placeStatement m u table = ⟨m, u, 0⟩ :: table)
    (hn : ∀ u, placeStatement n u table = ⟨n, u, 0⟩ :: table) :
    placeStatement m s (placeStatement n t table) = placeStatement n t (placeStatement m s table) := by
  rw [hn, placeStatement_before h, hm, placeStatement_behind h, hn]

/-- The order in which two numbers come does not matter. -/
theorem placeStatement_comm (h : m ≠ n) (s t : Statement) (table : List TableEntry) :
    placeStatement m s (placeStatement n t table) = placeStatement n t (placeStatement m s table) := by
  induction table with
  | nil =>
    rcases Int.lt_or_gt_of_ne h with h | h
    · exact placeStatement_comm_before h (fun _ => rfl) fun _ => rfl
    · exact (placeStatement_comm_before h (fun _ => rfl) fun _ => rfl).symm
  | cons e rest ih =>
    -- Each number goes before the first entry, onto it or behind it. Only where both go before it they are compared.
    rcases Int.lt_trichotomy m e.number with hm | hm | hm
    · rcases Int.lt_trichotomy n e.number with hn | hn | hn
      · rcases Int.lt_or_gt_of_ne h with h | h
        · exact placeStatement_comm_before h (fun _ => placeStatement_before hm) fun _ => placeStatement_before hn
        · exact (placeStatement_comm_before h (fun _ => placeStatement_before hn) fun _ => placeStatement_before hm).symm
      · have hmn : m < n := hn ▸ hm
        rw [placeStatement_onto hn, placeStatement_before hm, placeStatement_before hmn, placeStatement_behind hmn,
          placeStatement_onto hn]
      · rw [placeStatement_behind hn, placeStatement_before hm, placeStatement_before hm,
          placeStatement_behind (Int.lt_trans hm hn), placeStatement_behind hn]
    · rcases Int.lt_trichotomy n e.number with hn | hn | hn
      · have hnm : n < m := hm ▸ hn
        rw [placeStatement_before hn, placeStatement_behind hnm, placeStatement_onto hm, placeStatement_before hnm]
      · exact absurd (hm.trans hn.symm) h
      · have hmn : m < n := hm ▸ hn
        rw [placeStatement_behind hn, placeStatement_onto hm, placeStatement_onto hm, placeStatement_behind hmn]
    · rcases Int.lt_trichotomy n e.number with hn | hn | hn
      · rw [placeStatement_before hn, placeStatement_behind (Int.lt_trans hn hm), placeStatement_behind hm,
          placeStatement_before hn]
      · have hnm : n < m := hn ▸ hm
        rw [placeStatement_onto hn, placeStatement_behind hnm, placeStatement_behind hm, placeStatement_onto hn]
      · rw [placeStatement_behind hn, placeStatement_behind hm, placeStatement_behind hm, placeStatement_behind hn, ih]

/-- Puts numbered statements into a table, one after the other. -/
def placeAll (numbered : List (LineNumber × Statement)) (table : List TableEntry) : List TableEntry :=
  numbered.foldl (fun table line => placeStatement line.1 line.2 table) table

/-- A statement may be put in before all those with other numbers that came before it. -/
theorem placeAll_moved {line : LineNumber × Statement} {before : List (LineNumber × Statement)}
    (h : ∀ other ∈ before, other.1 ≠ line.1) (after : List (LineNumber × Statement)) (table : List TableEntry) :
    placeAll (before ++ line :: after) table = placeAll (line :: (before ++ after)) table := by
  induction before generalizing table with
  | nil => rfl
  | cons first before ih =>
    have step := ih (fun other ho => h other (by simp [ho])) (placeStatement first.1 first.2 table)
    have swapped := placeStatement_comm (h first (by simp)).symm line.2 first.2 table
    show placeAll (before ++ line :: after) (placeStatement first.1 first.2 table) = _
    rw [step]
    show placeAll (before ++ after) (placeStatement line.1 line.2 (placeStatement first.1 first.2 table)) = _
    rw [swapped]
    rfl

/-- The table is told by what each number has, in its order. -/
theorem placeAll_eq {xs ys : List (LineNumber × Statement)}
    (h : ∀ n : LineNumber, (xs.filter fun x => x.1 = n) = ys.filter fun y => y.1 = n) (table : List TableEntry) :
    placeAll xs table = placeAll ys table := by
  induction xs generalizing ys table with
  | nil =>
    have none : ys = [] := by
      refine List.eq_nil_iff_forall_not_mem.mpr fun y hy => ?_
      have : y ∈ ys.filter fun z => z.1 = y.1 := List.mem_filter.mpr ⟨hy, by simp⟩
      rw [← h y.1] at this
      cases this
    rw [none]
  | cons x xs ih =>
    -- `x` is the first of its number in `ys` too, so it can be moved to the front there.
    have hx : (ys.filter fun y => y.1 = x.1) = x :: xs.filter fun y => y.1 = x.1 := by simp [← h x.1]
    obtain ⟨before, after, rfl, hbefore, -, hafter⟩ := List.filter_eq_cons_iff.mp hx
    have others : ∀ other ∈ before, other.1 ≠ x.1 := fun other ho => by simpa using hbefore other ho
    rw [placeAll_moved others]
    show placeAll xs (placeStatement x.1 x.2 table) = placeAll (before ++ after) (placeStatement x.1 x.2 table)
    refine ih (fun n => ?_) (placeStatement x.1 x.2 table)
    by_cases hn : x.1 = n
    · have none : (before.filter fun y => y.1 = n) = [] :=
        List.filter_eq_nil_iff.mpr fun other ho => by simpa [hn] using others other ho
      rw [List.filter_append, none, List.nil_append, ← hn]
      exact hafter.symm
    · simpa [hn, List.filter_append] using h n

theorem tabulate_eq {xs ys : List (LineNumber × Statement)}
    (h : ∀ n : LineNumber, (xs.filter fun x => x.1 = n) = ys.filter fun y => y.1 = n) : tabulate xs = tabulate ys :=
  placeAll_eq h []

end Table

/-! ## The source -/

namespace Framing

/-- The statements of the lines with a number, in their order. -/
def Layout.statementsAt (l : Layout) (n : LineNumber) : List Text :=
  (l.rows.filter fun row => (decimalValue row.digits : Int) = n).map Row.statement

/-- The same lines laid out anew: each number has the same statements in the same order. Where lines with other numbers
    stand, how a number and the blanks behind it are spelled, and all line breaks may differ. -/
def Layout.Relaid (l l' : Layout) : Prop := ∀ n, l'.statementsAt n = l.statementsAt n

theorem map_framed {α : Type} (f : Text → Text → α) (l : Layout) (o : Nat) :
    (l.framed o).map (fun line => f line.digits line.statement) = l.rows.map fun row => f row.digits row.statement := by
  induction l generalizing o with
  | last row final => rfl
  | line row ending rest ih =>
    rw [Layout.framed, List.map_cons, ih]
    rfl

theorem row_of_framed {l : Layout} {o : Nat} {line : NumberedLine} (h : line ∈ l.framed o) :
    ∃ row ∈ l.rows, row.digits = line.digits ∧ row.statement = line.statement := by
  have pieces : (line.digits, line.statement) ∈ (l.framed o).map fun line => (line.digits, line.statement) :=
    List.mem_map_of_mem h
  rw [map_framed Prod.mk l o] at pieces
  simpa using pieces

theorem framed_of_row {l : Layout} {row : Row} (h : row ∈ l.rows) (o : Nat) :
    ∃ line ∈ l.framed o, line.statement = row.statement := by
  have piece : row.statement ∈ l.rows.map Row.statement := List.mem_map_of_mem h
  rw [← map_framed (fun _ s => s) l o] at piece
  simpa using piece

theorem Layout.mem_statementsAt {l : Layout} {n : LineNumber} {s : Text} :
    s ∈ l.statementsAt n ↔ ∃ row ∈ l.rows, (decimalValue row.digits : Int) = n ∧ row.statement = s := by
  simp [Layout.statementsAt, and_assoc]

/-- What the lines with a number are, among all numbers and trees of a layout. -/
theorem filter_parsed {l : Layout} {numbered : List (LineNumber × Statement)}
    (h : numbered.map (fun n => (n.1, Except.ok n.2)) =
      (l.framed 0).map fun line => ((decimalValue line.digits : Int), Statement.ofText line.statement))
    (n : LineNumber) :
    (numbered.filter fun x => x.1 = n).map (fun x => (x.1, (Except.ok x.2 : Except Failure Statement))) =
      (l.statementsAt n).map fun s => (n, Statement.ofText s) := by
  have all := congrArg (List.filter fun pair : LineNumber × Except Failure Statement => pair.1 = n) h
  rw [map_framed (fun digits s => ((decimalValue digits : Int), Statement.ofText s)) l 0, List.filter_map,
    List.filter_map] at all
  refine all.trans ?_
  rw [Layout.statementsAt, List.map_map]
  refine List.map_congr_left fun row hrow => ?_
  have number : (decimalValue row.digits : Int) = n := by simpa using (List.mem_filter.mp hrow).2
  exact congrArg (·, Statement.ofText row.statement) number

end Framing

open Framing

section Accepted

variable {l : Layout} {result : Program × List Warning}

theorem layout_of_accepted {source : Text} (h : Program.ofSource source = .ok result) : ∃ l : Layout, l.text = source := by
  rcases layout_or_gap source with hl | ⟨n, piece, hgap⟩
  · exact hl
  · rw [ofSource_of_frame_error (frame_gap hgap)] at h
    cases h

theorem parses_of_accepted (h : Program.ofSource l.text = .ok result) :
    (∀ line ∈ l.framed 0, line.digits.length ≤ Rule.digitLimit) ∧
      ∀ line ∈ l.framed 0, ∃ s, Statement.ofText line.statement = .ok s := by
  have short : ∀ line ∈ l.framed 0, line.digits.length ≤ Rule.digitLimit := by
    intro line hl
    by_cases hlong : Rule.digitLimit < line.digits.length
    · obtain ⟨_, -, hf⟩ := ofSource_long_number (frame_layout l) ⟨line, hl, hlong⟩
      rw [h] at hf
      cases hf
    · exact Nat.le_of_not_lt hlong
  refine ⟨short, fun line hl => ?_⟩
  cases hs : Statement.ofText line.statement with
  | ok s => exact ⟨s, rfl⟩
  | error f =>
    obtain ⟨_, _, -, -, hf⟩ := ofSource_refused (frame_layout l) short ⟨line, hl, f, hs⟩
    rw [h] at hf
    cases hf

theorem framed_ne_nil (l : Layout) (o : Nat) : l.framed o ≠ [] := by
  cases l <;> simp [Layout.framed]

theorem accepted_relaid (h : Program.ofSource l.text = .ok result) {l' : Layout} (same : l.Relaid l')
    (short : ∀ row ∈ l'.rows, row.digits.length ≤ Rule.digitLimit) : Program.ofSource l'.text = .ok result := by
  obtain ⟨hshort, hparses⟩ := parses_of_accepted h
  obtain ⟨numbered, result₁, hnumbered, hassembled, hresult⟩ :=
    ofSource_assembled (frame_layout l) (framed_ne_nil l 0) hshort hparses
  have short' : ∀ line ∈ l'.framed 0, line.digits.length ≤ Rule.digitLimit := by
    intro line hl
    obtain ⟨row, hrow, hdigits, -⟩ := row_of_framed hl
    exact hdigits ▸ short row hrow
  have parses' : ∀ line ∈ l'.framed 0, ∃ s, Statement.ofText line.statement = .ok s := by
    intro line hl
    obtain ⟨row, hrow, -, hstatement⟩ := row_of_framed hl
    have kept : row.statement ∈ l.statementsAt (decimalValue row.digits : Int) := by
      rw [← same]
      exact Layout.mem_statementsAt.mpr ⟨row, hrow, rfl, rfl⟩
    obtain ⟨old, hold, -, hsame⟩ := Layout.mem_statementsAt.mp kept
    obtain ⟨line', hl', hline'⟩ := framed_of_row hold 0
    rw [← hstatement, ← hsame, ← hline']
    exact hparses line' hl'
  obtain ⟨numbered', result', hnumbered', hassembled', hresult'⟩ :=
    ofSource_assembled (frame_layout l') (framed_ne_nil l' 0) short' parses'
  have table : tabulate numbered' = tabulate numbered := by
    refine tabulate_eq fun n => ?_
    have alike := (filter_parsed hnumbered' n).trans ((congrArg _ (same n)).trans (filter_parsed hnumbered n).symm)
    refine (List.map_inj_right fun x y hxy => ?_).mp alike
    cases x
    cases y
    cases hxy
    rfl
  rw [hresult', ← hassembled', assemble, table]
  rw [h] at hresult
  rw [Except.ok.inj hresult, ← hassembled]
  rfl

end Accepted

/-- A source text that is accepted is a layout, and every other layout of the same lines makes the same program with the
    same warnings. -/
theorem ofSource_relaid {source : Text} {result : Program × List Warning} (h : Program.ofSource source = .ok result) :
    (∃ l : Layout, l.text = source) ∧ ∀ l l' : Layout, l.text = source → l.Relaid l' →
      (∀ row ∈ l'.rows, row.digits.length ≤ Rule.digitLimit) → Program.ofSource l'.text = .ok result := by
  refine ⟨layout_of_accepted h, ?_⟩
  rintro l l' rfl same short
  exact accepted_relaid h same short

/-- Lines that change places, a number spelled in two ways, and all three line breaks. -/
theorem ofSource_relaid_repeated :
    ∃ result, Program.ofSource "20 RETURN\n7 END\n7 GOTO 20".toList = .ok result ∧
      Program.ofSource "007\t END\r7 GOTO 20\r\n20 RETURN\n".toList = .ok result := by
  let twenty : Row := ⟨"20".toList, [' '], "RETURN".toList, by simp [Digits], by simp [isBlank],
    by simp [isBlank], by simp [isBreak]⟩
  let seven : Row := ⟨"7".toList, [' '], "END".toList, by simp [Digits], by simp [isBlank],
    by simp [isBlank], by simp [isBreak]⟩
  let padded : Row := ⟨"007".toList, ['\t', ' '], "END".toList, by simp [Digits], by simp [isBlank],
    by simp [isBlank], by simp [isBreak]⟩
  let again : Row := ⟨"7".toList, [' '], "GOTO 20".toList, by simp [Digits], by simp [isBlank],
    by simp [isBlank], by simp [isBreak]⟩
  let before : Layout := .line twenty .lf (.line seven .lf (.last again none))
  let after : Layout := .line padded .cr (.line again .crlf (.last twenty (some .lf)))
  have same : before.Relaid after := by
    intro n
    have numbers : decimalValue twenty.digits = 20 ∧ decimalValue seven.digits = 7 ∧ decimalValue padded.digits = 7 ∧
        decimalValue again.digits = 7 := by decide
    show ([padded, again, twenty].filter _).map Row.statement = ([twenty, seven, again].filter _).map Row.statement
    simp only [List.filter_cons, List.filter_nil, numbers]
    by_cases hn : n = 7
    · rw [hn]
      rfl
    · have other : ¬ (7 : Int) = n := Ne.symm hn
      simp [other]
  have short : ∀ row ∈ after.rows, row.digits.length ≤ Rule.digitLimit := by
    simp [after, Layout.rows, padded, again, twenty, Rule.digitLimit]
  have accepted : Program.ofSource "20 RETURN\n7 END\n7 GOTO 20".toList =
      .ok (⟨7, [⟨7, .goto 20, 20⟩, ⟨20, .returnSub, -1⟩]⟩, [.repeatedLine 7 (by decide)]) := by rfl
  exact ⟨_, accepted, (ofSource_relaid accepted).2 before after rfl same short⟩

end LineBasic
