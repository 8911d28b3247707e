import LineBasic.Proofs.Table

/-
  LineBasic.Proofs.Sorting — a program by sorting its statements.

  (1) The statements are sorted by their numbers, and those of one number keep their order. This changes nothing for the
      table (`tabulate_sortByNumber`).
  (2) Each statement names the number behind it in the sorted list, and lines are put in one after the other, over the
      line of their number if there is one (`Draft.put`). All lines of a number but the last one name this number
      itself, but they do not stay: after each step the lines are those of the table so far (`put_placeStatement`).
  (3) The lines, the entry and the numbers warned of, in their order, are those of the program (`assemble_eq_sorted`).
-/

namespace LineBasic

/-! ## (1) Sorted statements -/

def byNumber (x y : LineNumber × Statement) : Bool := x.1 ≤ y.1

@[simp] theorem byNumber_iff {x y : LineNumber × Statement} : byNumber x y = true ↔ x.1 ≤ y.1 := decide_eq_true_iff

theorem byNumber_trans (x y z : LineNumber × Statement) (hxy : byNumber x y = true) (hyz : byNumber y z = true) :
    byNumber x z = true := byNumber_iff.mpr (Int.le_trans (byNumber_iff.mp hxy) (byNumber_iff.mp hyz))

theorem byNumber_total (x y : LineNumber × Statement) : (byNumber x y || byNumber y x) = true := by
  simpa using Int.le_total x.1 y.1

section Sorted

variable (numbered : List (LineNumber × Statement))

def sortByNumber : List (LineNumber × Statement) := numbered.mergeSort byNumber

theorem perm_sortByNumber : (sortByNumber numbered).Perm numbered := List.mergeSort_perm numbered byNumber

theorem pairwise_sortByNumber : (sortByNumber numbered).Pairwise fun x y => x.1 ≤ y.1 :=
  (List.pairwise_mergeSort byNumber_trans byNumber_total numbered).imp byNumber_iff.mp

theorem linesAt_sortByNumber (n : LineNumber) : linesAt (sortByNumber numbered) n = linesAt numbered n := by
  have number {x : LineNumber × Statement} (hx : x ∈ linesAt numbered n) : x.1 = n := by
    simpa using (List.mem_filter.mp hx).2
  have alike : (linesAt numbered n).Pairwise fun x y => byNumber x y = true :=
    List.pairwise_of_forall_mem_list fun x hx y hy => byNumber_iff.mpr (Int.le_of_eq ((number hx).trans (number hy).symm))
  have kept : (linesAt numbered n).Sublist (sortByNumber numbered) :=
    List.sublist_mergeSort byNumber_trans byNumber_total alike List.filter_sublist
  have inside : (linesAt numbered n).Sublist (linesAt (sortByNumber numbered) n) := by
    simpa [linesAt] using kept.filter fun x => decide (x.1 = n)
  exact (inside.eq_of_length ((perm_sortByNumber numbered).filter _).length_eq.symm).symm

theorem tabulate_sortByNumber : tabulate (sortByNumber numbered) = tabulate numbered :=
  tabulate_eq (linesAt_sortByNumber numbered)

end Sorted

/-! ## (2) Lines over lines -/

/-- The lines so far, and the numbers to warn of. -/
structure Draft where
  lines : List ProgramLine
  repeated : List LineNumber

def overwrite (l : ProgramLine) : List ProgramLine → List ProgramLine
  | [] => [l]
  | old :: rest => if old.number = l.number then l :: rest else old :: overwrite l rest

/-- Puts in a line, and notes its number if that is there already. -/
def Draft.put (d : Draft) (l : ProgramLine) : Draft where
  lines := overwrite l d.lines
  repeated := if l.number ∈ lineNumbers d.lines then d.repeated ++ [l.number] else d.repeated

/-- Every statement with the number behind it, be it the same. -/
def linkSorted : List (LineNumber × Statement) → List ProgramLine
  | [] => []
  | x :: rest => ⟨x.1, x.2, firstNumber (rest.map Prod.fst)⟩ :: linkSorted rest

/-- The lines of a table before a line with the number `next`. -/
def linesBefore (next : LineNumber) : List TableEntry → List ProgramLine
  | [] => []
  | e :: rest => ⟨e.number, e.statement, (numbersOf rest).head?.getD next⟩ :: linesBefore next rest

theorem linkLines_eq (table : List TableEntry) : linkLines table = linesBefore endOfProgram table := by
  induction table with
  | nil => rfl
  | cons e rest ih =>
    rw [linkLines_cons, ih]
    rfl

theorem lineNumbers_linesBefore (next : LineNumber) (table : List TableEntry) :
    lineNumbers (linesBefore next table) = numbersOf table := by
  induction table with
  | nil => rfl
  | cons e rest ih => rw [linesBefore, lineNumbers, List.map_cons, numbersOf_cons, ← ih]

section Put

variable {n next : LineNumber} {s : Statement} {table : List TableEntry}

/-- No number is put before smaller ones. -/
theorem head_placeStatement (h : ∀ e ∈ table, e.number ≤ n) :
    (numbersOf (placeStatement n s table)).head?.getD next = (numbersOf table).head?.getD n := by
  cases table with
  | nil => rfl
  | cons e rest =>
    rcases Int.lt_or_eq_of_le (h e List.mem_cons_self) with he | he
    · rw [placeStatement_behind he]
      rfl
    · rw [placeStatement_onto he.symm, numbersOf_cons, numbersOf_cons, he]
      rfl

theorem last_of_largest {e : TableEntry} {rest : List TableEntry} (ascending : (numbersOf (e :: rest)).Pairwise (· < ·))
    (h : ∀ old ∈ rest, old.number ≤ e.number) : rest = [] := by
  refine List.eq_nil_iff_forall_not_mem.mpr fun old ho => ?_
  exact absurd (h old ho) (Int.not_le.mpr ((List.pairwise_cons.mp ascending).1 _ (mem_numbersOf.mpr ⟨old, ho, rfl⟩)))

/-- What names the number `n` names it still, whether it is put in over the last line or behind it. -/
theorem overwrite_linesBefore (ascending : (numbersOf table).Pairwise (· < ·)) (h : ∀ e ∈ table, e.number ≤ n) :
    overwrite ⟨n, s, next⟩ (linesBefore n table) = linesBefore next (placeStatement n s table) := by
  induction table with
  | nil => rfl
  | cons e rest ih =>
    obtain ⟨he, hbelow⟩ := List.forall_mem_cons.mp h
    rcases Int.lt_or_eq_of_le he with he | rfl
    · rw [placeStatement_behind he, linesBefore, linesBefore, head_placeStatement hbelow, overwrite,
        if_neg (Int.ne_of_lt he), ih (List.pairwise_cons.mp ascending).2 hbelow]
    · obtain rfl := last_of_largest ascending hbelow
      rw [placeStatement_onto rfl, linesBefore, overwrite, if_pos rfl]
      rfl

theorem repeatedNumbers_placeStatement (ascending : (numbersOf table).Pairwise (· < ·)) (h : ∀ e ∈ table, e.number ≤ n) :
    (if n ∈ numbersOf table then repeatedNumbers table ++ [n] else repeatedNumbers table) =
      repeatedNumbers (placeStatement n s table) := by
  induction table with
  | nil => rfl
  | cons e rest ih =>
    obtain ⟨he, hbelow⟩ := List.forall_mem_cons.mp h
    rcases Int.lt_or_eq_of_le he with he | rfl
    · have noted := ih (List.pairwise_cons.mp ascending).2 hbelow
      rw [placeStatement_behind he]
      simp only [repeatedNumbers, List.flatMap_cons, numbersOf_cons, List.mem_cons, Int.ne_of_gt he, false_or] at noted ⊢
      rw [← noted]
      split
      · rw [List.append_assoc]
      · rfl
    · obtain rfl := last_of_largest ascending hbelow
      rw [placeStatement_onto rfl]
      simp [repeatedNumbers, List.replicate_succ']

theorem put_placeStatement (ascending : (numbersOf table).Pairwise (· < ·)) (h : ∀ e ∈ table, e.number ≤ n) :
    Draft.put ⟨linesBefore n table, repeatedNumbers table⟩ ⟨n, s, next⟩ =
      ⟨linesBefore next (placeStatement n s table), repeatedNumbers (placeStatement n s table)⟩ := by
  rw [Draft.put, overwrite_linesBefore ascending h, lineNumbers_linesBefore, repeatedNumbers_placeStatement ascending h]

/-- From a table on, lines put in ascending order make the lines of the table of all statements. -/
theorem foldl_put {rest : List (LineNumber × Statement)} (sorted : rest.Pairwise fun x y => x.1 ≤ y.1)
    (ascending : (numbersOf table).Pairwise (· < ·)) (h : ∀ e ∈ table, ∀ x ∈ rest, e.number ≤ x.1) :
    (linkSorted rest).foldl Draft.put ⟨linesBefore (firstNumber (rest.map Prod.fst)) table, repeatedNumbers table⟩ =
      ⟨linkLines (placeAll rest table), repeatedNumbers (placeAll rest table)⟩ := by
  induction rest generalizing table with
  | nil =>
    rw [linkLines_eq]
    rfl
  | cons x rest ih =>
    obtain ⟨hx, hrest⟩ := List.pairwise_cons.mp sorted
    show (linkSorted rest).foldl Draft.put (Draft.put ⟨linesBefore x.1 table, _⟩ _) = _
    rw [put_placeStatement ascending fun e he => h e he x List.mem_cons_self]
    refine ih hrest ?_ fun e he y hy => ?_
    · rw [numbers_placeStatement]
      exact pairwise_insertAscending ascending
    · rcases mem_placeStatement ascending he with ⟨he, -⟩ | ⟨-, -, -, rfl⟩ | ⟨-, rfl⟩
      · exact h e he y (List.mem_cons_of_mem _ hy)
      · exact hx y hy
      · exact hx y hy

end Put

/-! ## (3) The program -/

/-- Lines put in by their numbers. -/
def Draft.sorted (numbered : List (LineNumber × Statement)) : Draft :=
  (linkSorted (sortByNumber numbered)).foldl Draft.put ⟨[], []⟩

theorem draft_sorted (numbered : List (LineNumber × Statement)) :
    Draft.sorted numbered = ⟨linkLines (tabulate numbered), repeatedNumbers (tabulate numbered)⟩ := by
  have empty : (numbersOf []).Pairwise (· < ·) := .nil
  rw [← tabulate_sortByNumber]
  exact foldl_put (pairwise_sortByNumber numbered) empty fun e he => absurd he List.not_mem_nil

/-- The smallest number comes first. -/
theorem firstNumber_sortByNumber {numbered : List (LineNumber × Statement)} (h : numbered ≠ []) :
    firstNumber ((sortByNumber numbered).map Prod.fst) = firstNumber (numbersOf (tabulate numbered)) := by
  have members (n : LineNumber) : n ∈ (sortByNumber numbered).map Prod.fst ↔ n ∈ numbersOf (tabulate numbered) := by
    rw [mem_numbers_tabulate]
    exact ((perm_sortByNumber numbered).map Prod.fst).mem_iff
  have someSorted : (sortByNumber numbered).map Prod.fst ≠ [] := by
    intro none
    exact h (List.nil_perm.mp (List.map_eq_nil_iff.mp none ▸ perm_sortByNumber numbered))
  obtain ⟨hm, least⟩ := firstNumber_least someSorted (List.pairwise_map.mpr (pairwise_sortByNumber numbered))
  obtain ⟨hm', least'⟩ := firstNumber_least (List.ne_nil_of_mem ((members _).mp hm))
    ((pairwise_tabulate numbered).imp Int.le_of_lt)
  exact Int.le_antisymm (least _ ((members _).mpr hm')) (least' _ ((members _).mp hm))

/-- Sorting the statements, linking them and putting them in one over the other makes the same program, with the same
    warnings, or fails as well. -/
theorem assemble_eq_sorted {numbered : List (LineNumber × Statement)} (h : numbered ≠ []) :
    assemble numbered = (Draft.sorted numbered).repeated.mapM Warning.ofRepeat >>= fun ws =>
      pure (⟨firstNumber ((sortByNumber numbered).map Prod.fst), (Draft.sorted numbered).lines⟩, ws) := by
  rw [assemble_eq h, draft_sorted, firstNumber_sortByNumber h]

end LineBasic
