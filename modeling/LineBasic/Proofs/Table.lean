import LineBasic.Proofs.Rearrangement

/-
  LineBasic.Proofs.Table — what a program has of the statements it is put together from.

  (1) Every line names the one behind it (`Linked`), so the lines of a program ascend and its links do too
      (`assemble_threaded`).
  (2) A program has every number once, with its last statement and the next larger number, and there is a warning for
      each statement that is not the first of its number (`assemble_table`). The end of the program is named by a number,
      too, and a line that has it may name itself (`assemble_table_own_number`).
-/

namespace LineBasic

/-! ## (1) The lines -/

abbrev lineNumbers (lines : List ProgramLine) : List LineNumber := lines.map ProgramLine.number

/-- Every line names the one behind it, and the last one names the end. -/
def Linked (lines : List ProgramLine) : Prop :=
  ∀ before l after, lines = before ++ l :: after → l.next = firstNumber (lineNumbers after)

theorem linkLines_cons (e : TableEntry) (rest : List TableEntry) :
    linkLines (e :: rest) = ⟨e.number, e.statement, firstNumber (numbersOf rest)⟩ :: linkLines rest := by
  cases rest <;> rfl

theorem lineNumbers_linkLines (table : List TableEntry) : lineNumbers (linkLines table) = numbersOf table := by
  induction table with
  | nil => rfl
  | cons e rest ih => rw [linkLines_cons, lineNumbers, List.map_cons, numbersOf_cons, ← ih]

theorem mem_linkLines {table : List TableEntry} {l : ProgramLine} (h : l ∈ linkLines table) :
    ∃ e ∈ table, e.number = l.number ∧ e.statement = l.statement := by
  induction table with
  | nil => cases h
  | cons e rest ih =>
    rw [linkLines_cons] at h
    rcases List.mem_cons.mp h with rfl | h
    · exact ⟨e, List.mem_cons_self, rfl, rfl⟩
    · obtain ⟨e', he', hl⟩ := ih h
      exact ⟨e', List.mem_cons_of_mem _ he', hl⟩

theorem linked_linkLines (table : List TableEntry) : Linked (linkLines table) := by
  induction table with
  | nil =>
    intro before l after h
    simp [linkLines] at h
  | cons e rest ih =>
    intro before l after h
    rw [linkLines_cons] at h
    cases before with
    | nil =>
      obtain ⟨rfl, rfl⟩ := List.cons.inj h
      rw [lineNumbers_linkLines]
    | cons first before => exact ih before l after (List.cons.inj h).2

/-- A program whose lines ascend, and whose entry and links lead from each line to the one behind it. -/
structure Program.Threaded (p : Program) : Prop where
  ascending : (lineNumbers p.lines).Pairwise (· < ·)
  linked : Linked p.lines
  entry : p.entry = firstNumber (lineNumbers p.lines)

theorem assemble_threaded {numbered : List (LineNumber × Statement)} {p : Program} {ws : List Warning}
    (h : assemble numbered = .ok (p, ws)) : p.Threaded ∧ ∀ n, n ∈ lineNumbers p.lines ↔ n ∈ numbered.map Prod.fst := by
  obtain ⟨-, rfl, -⟩ := assemble_ok_iff.mp h
  refine ⟨⟨?_, linked_linkLines _, ?_⟩, fun n => ?_⟩
  · rw [lineNumbers_linkLines]
    exact pairwise_tabulate numbered
  · rw [lineNumbers_linkLines]
  · rw [lineNumbers_linkLines]
    exact mem_numbers_tabulate numbered n

/-! ## (2) Programs -/

/-- `m` is the smallest of the numbers beyond `n`, or the end of the program if there is none. -/
def Follows (numbers : List LineNumber) (n m : LineNumber) : Prop :=
  (n < m ∧ m ∈ numbers ∧ ∀ k ∈ numbers, n < k → m ≤ k) ∨ ((∀ k ∈ numbers, k ≤ n) ∧ m = endOfProgram)

theorem Follows.congr {numbers numbers' : List LineNumber} (same : ∀ k, k ∈ numbers ↔ k ∈ numbers') {n m : LineNumber}
    (h : Follows numbers n m) : Follows numbers' n m := by
  rcases h with ⟨hlt, hm, least⟩ | ⟨last, hm⟩
  · exact .inl ⟨hlt, (same m).mp hm, fun k hk => least k ((same k).mpr hk)⟩
  · exact .inr ⟨fun k hk => last k ((same k).mpr hk), hm⟩

theorem follows_firstNumber {before after : List LineNumber} {n : LineNumber}
    (ascending : (before ++ n :: after).Pairwise (· < ·)) : Follows (before ++ n :: after) n (firstNumber after) := by
  obtain ⟨-, hafter, hbefore⟩ := List.pairwise_append.mp ascending
  have earlier : ∀ k ∈ before, k < n := fun k hk => hbefore k hk n List.mem_cons_self
  obtain ⟨hn, hrest⟩ := List.pairwise_cons.mp hafter
  cases after with
  | nil =>
    refine .inr ⟨fun k hk => ?_, rfl⟩
    rcases List.mem_append.mp hk with hk | hk
    · exact Int.le_of_lt (earlier k hk)
    · exact Int.le_of_eq (List.mem_singleton.mp hk)
  | cons m rest =>
    have hm : n < m := hn m List.mem_cons_self
    refine .inl ⟨hm, by simp [firstNumber], fun k hk hlt => ?_⟩
    rcases List.mem_append.mp hk with hk | hk
    · exact absurd hlt (Int.lt_asymm (earlier k hk))
    · rcases List.mem_cons.mp hk with rfl | hk
      · exact absurd hlt (Int.lt_irrefl _)
      · rcases List.mem_cons.mp hk with rfl | hk
        · exact Int.le_refl _
        · exact Int.le_of_lt ((List.pairwise_cons.mp hrest).1 k hk)

theorem Program.Threaded.follows {p : Program} (h : p.Threaded) {l : ProgramLine} (hl : l ∈ p.lines) :
    Follows (lineNumbers p.lines) l.number l.next := by
  obtain ⟨before, after, hsplit⟩ := List.append_of_mem hl
  have ascending := h.ascending
  rw [h.linked before l after hsplit]
  rw [hsplit, lineNumbers, List.map_append, List.map_cons] at ascending ⊢
  exact follows_firstNumber ascending

/-- The first of ascending numbers is the smallest. -/
theorem firstNumber_least {numbers : List LineNumber} (hne : numbers ≠ []) (ascending : numbers.Pairwise (· ≤ ·)) :
    firstNumber numbers ∈ numbers ∧ ∀ n ∈ numbers, firstNumber numbers ≤ n := by
  obtain ⟨first, rest, rfl⟩ := List.exists_cons_of_ne_nil hne
  refine ⟨List.mem_cons_self, fun n hn => ?_⟩
  rcases List.mem_cons.mp hn with rfl | hn
  · exact Int.le_refl _
  · exact (List.pairwise_cons.mp ascending).1 n hn

theorem Program.Threaded.entry_least {p : Program} (h : p.Threaded) (hne : p.lines ≠ []) :
    p.entry ∈ lineNumbers p.lines ∧ ∀ n ∈ lineNumbers p.lines, p.entry ≤ n := by
  rw [h.entry]
  exact firstNumber_least (by simpa using hne) (h.ascending.imp Int.le_of_lt)

/-- A line names a larger number, or the end of the program, which is its own number only if there is none behind. -/
theorem Follows.eq_iff {numbers : List LineNumber} {n m : LineNumber} (h : Follows numbers n m) :
    m = n ↔ n = endOfProgram ∧ ∀ k ∈ numbers, k ≤ endOfProgram := by
  rcases h with ⟨hlt, hm, -⟩ | ⟨last, rfl⟩
  · constructor
    · rintro rfl
      exact absurd hlt (Int.lt_irrefl m)
    · rintro ⟨rfl, last⟩
      exact absurd hlt (Int.not_lt.mpr (last m hm))
  · constructor
    · rintro rfl
      exact ⟨rfl, last⟩
    · rintro ⟨rfl, -⟩
      rfl

theorem Warning.message_eq (w : Warning) :
    w.message = "Line " ++ toString w.number ++ " is defined more than once; keeping the last one" := by
  cases w
  rfl

/-- Where no number that comes more than once has too many digits, numbered statements make a program that has each
    number once, in ascending order, with its last statement. A line names the smallest larger number. The last line names
    the end of the program, which is its own number if that is −1, and no line names its own number otherwise. -/
theorem assemble_table {numbered : List (LineNumber × Statement)} (h : numbered ≠ [])
    (short : ∀ n, 1 < (linesAt numbered n).length → digitCount n ≤ Rule.digitLimit) :
    ∃ p ws, assemble numbered = .ok (p, ws) ∧
      (p.lines.map ProgramLine.number).Pairwise (· < ·) ∧
      (∀ n, n ∈ p.lines.map ProgramLine.number ↔ n ∈ numbered.map Prod.fst) ∧
      (∀ l ∈ p.lines, (linesAt numbered l.number).getLast? = some (l.number, l.statement)) ∧
      (∀ l ∈ p.lines, Follows (numbered.map Prod.fst) l.number l.next ∧
        (l.next = l.number ↔ l.number = endOfProgram ∧ ∀ n ∈ numbered.map Prod.fst, n ≤ endOfProgram)) ∧
      (p.entry ∈ numbered.map Prod.fst ∧ ∀ n ∈ numbered.map Prod.fst, p.entry ≤ n) ∧
      (ws.map Warning.message = (p.lines.map ProgramLine.number).flatMap fun n =>
        List.replicate ((linesAt numbered n).length - 1)
          ("Line " ++ toString n ++ " is defined more than once; keeping the last one")) ∧
      ws.length + p.lines.length = numbered.length := by
  obtain ⟨p, ws, assembled⟩ := assemble_ok h short
  obtain ⟨threaded, numbers⟩ := assemble_threaded assembled
  obtain ⟨-, rfl, warned⟩ := assemble_ok_iff.mp assembled
  refine ⟨_, ws, assembled, threaded.ascending, numbers, fun l hl => ?_, fun l hl => ?_, ?_, ?_, ?_⟩
  · obtain ⟨e, he, hn, hs⟩ := mem_linkLines hl
    rw [← hn, ← hs]
    exact (kept_tabulate numbered e he).1
  · have follows := (threaded.follows hl).congr numbers
    exact ⟨follows, follows.eq_iff⟩
  · have some : linkLines (tabulate numbered) ≠ [] := by
      intro none
      have : (numbered.map Prod.fst) = [] :=
        List.eq_nil_iff_forall_not_mem.mpr fun n hn => by simpa [none] using (numbers n).mpr hn
      exact h (List.map_eq_nil_iff.mp this)
    obtain ⟨hentry, least⟩ := threaded.entry_least some
    exact ⟨(numbers _).mp hentry, fun n hn => least n ((numbers n).mpr hn)⟩
  · have messages : ws.map Warning.message = (ws.map Warning.number).map fun n =>
        "Line " ++ toString n ++ " is defined more than once; keeping the last one" := by
      rw [List.map_map]
      exact List.map_congr_left fun w _ => w.message_eq
    rw [messages, warned, repeatedNumbers_tabulate, List.map_flatMap]
    show _ = (lineNumbers _).flatMap _
    rw [lineNumbers_linkLines]
    simp only [List.map_replicate]
  · have lines : (linkLines (tabulate numbered)).length = (tabulate numbered).length := by
      simpa [numbersOf] using congrArg List.length (lineNumbers_linkLines (tabulate numbered))
    have warnings : ws.length = (repeatedNumbers (tabulate numbered)).length := by
      rw [← warned, List.length_map]
    rw [lines, warnings]
    exact length_tabulate numbered

/-- A number that comes twice, a negative one, and the largest one first. -/
theorem assemble_table_repeated :
    [((7 : LineNumber), Statement.finish), (-3, .returnSub), (7, .goto 7)] ≠ [] ∧
      (∀ n : LineNumber, 1 < (linesAt [(7, .finish), (-3, .returnSub), (7, .goto 7)] n).length →
        digitCount n ≤ Rule.digitLimit) ∧
      ∃ p ws, assemble [(7, .finish), (-3, .returnSub), (7, .goto 7)] = .ok (p, ws) ∧
        p.lines = [⟨-3, .returnSub, 7⟩, ⟨7, .goto 7, endOfProgram⟩] ∧
        (∀ l ∈ p.lines, Follows [7, -3, 7] l.number l.next) ∧ ws.length + p.lines.length = 3 := by
  have some : [((7 : LineNumber), Statement.finish), (-3, .returnSub), (7, .goto 7)] ≠ [] := by simp
  have short (n : LineNumber) (again : 1 < (linesAt [(7, .finish), (-3, .returnSub), (7, .goto 7)] n).length) :
      digitCount n ≤ Rule.digitLimit := by
    by_cases hn : n = 7
    · subst hn
      decide
    · by_cases hm : n = -3
      · subst hm
        exact absurd again (by decide)
      · simp [linesAt, Ne.symm hn, Ne.symm hm] at again
  obtain ⟨p, ws, assembled, -, -, -, follows, -, -, count⟩ := assemble_table some short
  refine ⟨some, short, p, ws, assembled, ?_, fun l hl => (follows l hl).1, count⟩
  cases assembled
  rfl

/-- A line −1 that is the last one names itself. Two statements of a number with 4301 digits make no program. -/
theorem assemble_table_own_number :
    (assemble [(-1, .finish)] = .ok (⟨-1, [⟨-1, .finish, -1⟩]⟩, []) ∧
      ¬ ∃ p ws, assemble [(-1, .finish)] = .ok (p, ws) ∧ ∀ l ∈ p.lines, l.next ≠ l.number) ∧
    assemble [(Nat.pow 10 Rule.digitLimit, .finish), (Nat.pow 10 Rule.digitLimit, .finish)] =
      .error (.tooManyDigits none) := by
  have alone : assemble [(-1, .finish)] = .ok (⟨-1, [⟨-1, .finish, -1⟩]⟩, []) := by rfl
  have twice (n : LineNumber) : 1 < (linesAt [(n, .finish), (n, .finish)] n).length := by simp [linesAt]
  refine ⟨⟨alone, ?_⟩, ?_⟩
  · rintro ⟨p, ws, assembled, other⟩
    obtain ⟨rfl, -⟩ := Prod.mk.inj (Except.ok.inj (assembled.symm.trans alone))
    exact other ⟨-1, .finish, -1⟩ List.mem_cons_self rfl
  · exact assemble_error_iff.mpr (.inr ⟨⟨_, twice _, lt_digitCount_pow (by decide)⟩, rfl⟩)

end LineBasic
