import LineBasic.Proofs.Table

/-
  LineBasic.Proofs.Walking — a walk visits the lines of a program in their order.

  A walk only sees the number of the next line. In a threaded program that number leads to the line behind the last one
  (`line?_eq`, `Linked`), so what is left of the lines gets shorter with every step, and a walk that has as many steps
  as there are lines is not stopped by their count (`walkFrom_rest`). It ends at the first number that means the end,
  which may be that of a line. Source texts have no such line (`numbers_of_accepted`).
-/

namespace LineBasic

namespace Program

variable {p : Program}

/-! ## One step -/

theorem walkFrom_end (p : Program) (steps : Nat) : p.walkFrom steps endOfProgram = ⟨[], .finished⟩ := by
  unfold walkFrom
  rw [if_pos rfl]

theorem walkFrom_line {n : LineNumber} {l : ProgramLine} (hn : n ≠ endOfProgram) (hl : p.line? n = some l)
    (steps : Nat) : p.walkFrom (steps + 1) n =
      ⟨l :: (p.walkFrom steps l.next).visited, (p.walkFrom steps l.next).ending⟩ := by
  rw [walkFrom.eq_def]
  simp only [if_neg hn, hl]

/-- In a threaded program every line is the one found by its number. -/
theorem Threaded.line?_eq (h : p.Threaded) {l : ProgramLine} (hl : l ∈ p.lines) : p.line? l.number = some l := by
  obtain ⟨before, after, hsplit⟩ := List.append_of_mem hl
  have ascending := h.ascending
  rw [hsplit, lineNumbers, List.map_append, List.map_cons] at ascending
  refine List.find?_eq_some_iff_append.mpr ⟨decide_eq_true rfl, before, after, hsplit, fun earlier he => ?_⟩
  have smaller : earlier.number < l.number :=
    (List.pairwise_append.mp ascending).2.2 _ (List.mem_map_of_mem he) _ List.mem_cons_self
  simpa using Int.ne_of_lt smaller

/-! ## The walk -/

/-- The lines in front of the first one, if any, whose number means the end. -/
def visible (lines : List ProgramLine) : List ProgramLine := lines.takeWhile fun l => l.number ≠ endOfProgram

theorem visible_end {l : ProgramLine} (h : l.number = endOfProgram) (rest : List ProgramLine) :
    visible (l :: rest) = [] := by
  simp [visible, h]

theorem visible_line {l : ProgramLine} (h : l.number ≠ endOfProgram) (rest : List ProgramLine) :
    visible (l :: rest) = l :: visible rest := by
  simp [visible, h]

theorem visible_eq_self {lines : List ProgramLine} (h : ∀ l ∈ lines, l.number ≠ endOfProgram) :
    visible lines = lines := by
  have all : visible (lines ++ []) = lines ++ visible [] :=
    List.takeWhile_append_of_pos fun l hl => decide_eq_true (h l hl)
  simpa [visible] using all

/-- From the first of the remaining lines a walk visits those of them that it can reach. -/
theorem Threaded.walkFrom_rest (h : p.Threaded) {before rest : List ProgramLine} (hsplit : p.lines = before ++ rest)
    {steps : Nat} (hs : rest.length ≤ steps) :
    p.walkFrom steps (firstNumber (lineNumbers rest)) = ⟨visible rest, .finished⟩ := by
  induction rest generalizing before steps with
  | nil => exact walkFrom_end p steps
  | cons l rest ih =>
    show p.walkFrom steps l.number = _
    by_cases hl : l.number = endOfProgram
    · rw [hl, walkFrom_end, visible_end hl]
    · obtain ⟨steps, rfl⟩ : ∃ n, steps = n + 1 := Nat.exists_eq_add_one.mpr (Nat.lt_of_lt_of_le (by simp) hs)
      have found : p.line? l.number = some l := h.line?_eq (by simp [hsplit])
      have next : p.walkFrom steps l.next = ⟨visible rest, .finished⟩ := by
        rw [h.linked before l rest hsplit]
        exact ih (hsplit.trans (List.append_cons before l rest)) (Nat.le_of_succ_le_succ hs)
      rw [walkFrom_line hl found, next, visible_line hl]

theorem Threaded.walkFrom_entry (h : p.Threaded) {steps : Nat} (hs : p.lines.length ≤ steps) :
    p.walkFrom steps p.entry = ⟨visible p.lines, .finished⟩ := by
  rw [h.entry]
  exact h.walkFrom_rest (List.nil_append p.lines).symm hs

end Program

/-! ## Programs of a source text -/

open Framing

theorem numbers_of_accepted {source : Text} {p : Program} {ws : List Warning}
    (h : Program.ofSource source = .ok (p, ws)) : p.Threaded ∧ ∀ l ∈ p.lines, 0 ≤ l.number := by
  obtain ⟨layout, rfl⟩ := layout_of_accepted h
  obtain ⟨short, parses⟩ := parses_of_accepted h
  obtain ⟨numbered, result, hnumbered, assembled, hresult⟩ :=
    ofSource_assembled (frame_layout layout) (framed_ne_nil layout 0) short parses
  obtain rfl : (p, ws) = result := Except.ok.inj (h.symm.trans hresult)
  obtain ⟨threaded, numbers⟩ := assemble_threaded assembled
  refine ⟨threaded, fun l hl => ?_⟩
  have given : l.number ∈ numbered.map Prod.fst := (numbers _).mp (List.mem_map_of_mem hl)
  have firsts : numbered.map Prod.fst = (layout.framed 0).map fun line => (decimalValue line.digits : Int) := by
    simpa [Function.comp_def] using congrArg (List.map Prod.fst) hnumbered
  rw [firsts] at given
  obtain ⟨line, -, hline⟩ := List.mem_map.mp given
  rw [← hline]
  exact Int.natCast_nonneg _

/-- However many steps are allowed beyond the number of lines, a walk through the program of numbered statements ends
    by itself. It finds a line for every number it comes to and visits the lines in ascending order, each once, up to
    the first one whose number means the end. In a program of a source text that is every line. -/
theorem walk_in_order :
    (∀ numbered p ws, assemble numbered = .ok (p, ws) →
      (p.lines.map ProgramLine.number).Pairwise (· < ·) ∧
      (∀ n, n ∈ p.lines.map ProgramLine.number ↔ n ∈ numbered.map Prod.fst) ∧
      (∀ l ∈ p.lines, p.line? l.number = some l) ∧
      p.walk = ⟨p.lines.takeWhile fun l => l.number ≠ endOfProgram, .finished⟩ ∧
      ∀ steps, p.lines.length ≤ steps → p.walkFrom steps p.entry = p.walk) ∧
    ∀ source p ws, Program.ofSource source = .ok (p, ws) →
      (p.lines.map ProgramLine.number).Pairwise (· < ·) ∧ p.walk = ⟨p.lines, .finished⟩ := by
  constructor
  · intro numbered p ws assembled
    obtain ⟨threaded, numbers⟩ := assemble_threaded assembled
    have walk := threaded.walkFrom_entry (Nat.le_refl _)
    exact ⟨threaded.ascending, numbers, fun l hl => threaded.line?_eq hl, walk,
      fun steps hs => (threaded.walkFrom_entry hs).trans walk.symm⟩
  · intro source p ws h
    obtain ⟨threaded, numbers⟩ := numbers_of_accepted h
    have walk := threaded.walkFrom_entry (Nat.le_refl _)
    rw [Program.visible_eq_self fun l hl hend => absurd (numbers l hl) (by simp [hend, endOfProgram])] at walk
    exact ⟨threaded.ascending, walk⟩

/-- A walk that stops in front of a line −1, with smaller and larger ones beside it, and one over a whole source. -/
theorem walk_in_order_cut_short :
    (∃ p ws, assemble [(-1, .finish), (-7, .returnSub), (3, .finish), (-7, .goto 3)] = .ok (p, ws) ∧
      p.lines.length = 3 ∧ p.walk = ⟨[⟨-7, .goto 3, -1⟩], .finished⟩) ∧
    ∃ p ws, Program.ofSource "20 RETURN\n7 END\n7 GOTO 20".toList = .ok (p, ws) ∧
      p.walk = ⟨[⟨7, .goto 20, 20⟩, ⟨20, .returnSub, -1⟩], .finished⟩ := by
  obtain ⟨tables, sources⟩ := walk_in_order
  constructor
  · have assembled : assemble [(-1, .finish), (-7, .returnSub), (3, .finish), (-7, .goto 3)] =
        .ok (⟨-7, [⟨-7, .goto 3, -1⟩, ⟨-1, .finish, 3⟩, ⟨3, .finish, -1⟩]⟩, [.repeatedLine (-7) (by decide)]) := by rfl
    obtain ⟨-, -, -, walk, -⟩ := tables _ _ _ assembled
    exact ⟨_, _, assembled, rfl, walk.trans rfl⟩
  · have accepted : Program.ofSource "20 RETURN\n7 END\n7 GOTO 20".toList =
        .ok (⟨7, [⟨7, .goto 20, 20⟩, ⟨20, .returnSub, -1⟩]⟩, [.repeatedLine 7 (by decide)]) := by rfl
    exact ⟨_, _, accepted, (sources _ _ _ accepted).2⟩

end LineBasic
