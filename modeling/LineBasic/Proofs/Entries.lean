import LineBasic.Program
import LineBasic.Proofs.Ascending
import LineBasic.Proofs.Decimal

/-
  LineBasic.Proofs.Entries — the table of numbered statements, and what is said about it.

  (1) The numbers of the table are put in like those of an ascending list (`numbers_placeStatement`).
  (2) Each entry is the last statement of its number, with a count of the earlier ones (`kept_tabulate`). So a number is
      repeated as often as it comes once more (`repeatedNumbers_tabulate`).
  (3) There is a warning for each repeat, and a number that has too many digits to be written into one is the only thing
      for which statements make no program (`assemble_ok_iff`, `assemble_error_iff`).
-/

namespace LineBasic

/-! ## (1) One entry -/

def numbersOf (table : List TableEntry) : List LineNumber := table.map TableEntry.number

@[simp] theorem numbersOf_nil : numbersOf [] = [] := rfl

@[simp] theorem numbersOf_cons (e : TableEntry) (rest : List TableEntry) :
    numbersOf (e :: rest) = e.number :: numbersOf rest := rfl

@[simp] theorem mem_numbersOf {n : LineNumber} {table : List TableEntry} :
    n ∈ numbersOf table ↔ ∃ e ∈ table, e.number = n := List.mem_map

section Place

variable {n : LineNumber} {s : Statement} {e : TableEntry} {rest table : List TableEntry}

theorem placeStatement_before (h : n < e.number) : placeStatement n s (e :: rest) = ⟨n, s, 0⟩ :: e :: rest := if_pos h

theorem placeStatement_onto (h : n = e.number) :
    placeStatement n s (e :: rest) = ⟨n, s, e.repeats + 1⟩ :: rest := by
  unfold placeStatement
  rw [if_neg (h ▸ Int.lt_irrefl n), if_pos h]

theorem placeStatement_behind (h : e.number < n) :
    placeStatement n s (e :: rest) = e :: placeStatement n s rest := by
  rw [placeStatement, if_neg (Int.lt_asymm h), if_neg (Int.ne_of_gt h)]

theorem numbers_placeStatement (n : LineNumber) (s : Statement) (table : List TableEntry) :
    numbersOf (placeStatement n s table) = insertAscending n (numbersOf table) := by
  induction table with
  | nil => rfl
  | cons e rest ih =>
    rcases Int.lt_trichotomy n e.number with h | h | h
    · rw [placeStatement_before h, numbersOf_cons, numbersOf_cons, insertAscending, if_pos h]
    · rw [placeStatement_onto h, numbersOf_cons, numbersOf_cons, insertAscending, if_neg (h ▸ Int.lt_irrefl n),
        if_neg (h ▸ Int.lt_irrefl n), h]
    · rw [placeStatement_behind h, numbersOf_cons, numbersOf_cons, insertAscending, if_neg (Int.lt_asymm h), if_pos h, ih]

/-- An entry was there before under another number, or it is the one that was put in. -/
theorem mem_placeStatement (ascending : (numbersOf table).Pairwise (· < ·)) (he : e ∈ placeStatement n s table) :
    e ∈ table ∧ e.number ≠ n ∨ (∃ old ∈ table, old.number = n ∧ e = ⟨n, s, old.repeats + 1⟩) ∨
      n ∉ numbersOf table ∧ e = ⟨n, s, 0⟩ := by
  induction table with
  | nil => exact .inr (.inr ⟨by simp, by simpa [placeStatement] using he⟩)
  | cons first rest ih =>
    obtain ⟨hfirst, hrest⟩ := List.pairwise_cons.mp ascending
    have larger : ∀ old ∈ rest, first.number < old.number := fun old ho => hfirst _ (mem_numbersOf.mpr ⟨old, ho, rfl⟩)
    rcases Int.lt_trichotomy n first.number with h | h | h
    · rw [placeStatement_before h] at he
      have absent : ∀ old ∈ first :: rest, old.number ≠ n := by
        intro old ho
        rcases List.mem_cons.mp ho with rfl | ho
        · exact Int.ne_of_gt h
        · exact Int.ne_of_gt (Int.lt_trans h (larger old ho))
      rcases List.mem_cons.mp he with rfl | he
      · refine .inr (.inr ⟨fun hn => ?_, rfl⟩)
        obtain ⟨old, ho, hn⟩ := mem_numbersOf.mp hn
        exact absent old ho hn
      · exact .inl ⟨he, absent e he⟩
    · rw [placeStatement_onto h] at he
      rcases List.mem_cons.mp he with rfl | he
      · exact .inr (.inl ⟨first, List.mem_cons_self, h.symm, rfl⟩)
      · exact .inl ⟨List.mem_cons_of_mem _ he, Int.ne_of_gt (h ▸ larger e he)⟩
    · rw [placeStatement_behind h] at he
      rcases List.mem_cons.mp he with rfl | he
      · exact .inl ⟨List.mem_cons_self, Int.ne_of_lt h⟩
      · rcases ih hrest he with ⟨hm, hn⟩ | ⟨old, ho, hn, heq⟩ | ⟨hn, heq⟩
        · exact .inl ⟨List.mem_cons_of_mem _ hm, hn⟩
        · exact .inr (.inl ⟨old, List.mem_cons_of_mem _ ho, hn, heq⟩)
        · refine .inr (.inr ⟨?_, heq⟩)
          rw [numbersOf_cons, List.mem_cons, not_or]
          exact ⟨Int.ne_of_gt h, hn⟩

/-- One more statement is one more entry or one more repeat. -/
theorem length_placeStatement (n : LineNumber) (s : Statement) (table : List TableEntry) :
    (repeatedNumbers (placeStatement n s table)).length + (placeStatement n s table).length =
      (repeatedNumbers table).length + table.length + 1 := by
  induction table with
  | nil => rfl
  | cons e rest ih =>
    rcases Int.lt_trichotomy n e.number with h | h | h
    · rw [placeStatement_before h]
      simp [repeatedNumbers]
      omega
    · rw [placeStatement_onto h]
      simp [repeatedNumbers]
      omega
    · rw [placeStatement_behind h]
      simp only [repeatedNumbers, List.flatMap_cons, List.length_append, List.length_cons] at ih ⊢
      omega

end Place

/-! ## (2) All entries -/

/-- What a number has, in the order of the source. -/
def linesAt (numbered : List (LineNumber × Statement)) (n : LineNumber) : List (LineNumber × Statement) :=
  numbered.filter fun x => x.1 = n

/-- The entry has the last statement of its number, and counts the others. -/
def Kept (numbered : List (LineNumber × Statement)) (e : TableEntry) : Prop :=
  (linesAt numbered e.number).getLast? = some (e.number, e.statement) ∧
    (linesAt numbered e.number).length = e.repeats + 1

theorem tabulate_concat (numbered : List (LineNumber × Statement)) (x : LineNumber × Statement) :
    tabulate (numbered ++ [x]) = placeStatement x.1 x.2 (tabulate numbered) := by
  simp [tabulate]

/-- An induction on the statements in the order in which they are put in. -/
theorem tabulate_induction {P : List (LineNumber × Statement) → List TableEntry → Prop} (nil : P [] [])
    (place : ∀ numbered x, P numbered (tabulate numbered) →
      P (numbered ++ [x]) (placeStatement x.1 x.2 (tabulate numbered)))
    (numbered : List (LineNumber × Statement)) : P numbered (tabulate numbered) := by
  generalize hr : numbered.reverse = r
  induction r generalizing numbered with
  | nil =>
    obtain rfl : numbered = [] := List.reverse_eq_nil_iff.mp hr
    exact nil
  | cons x r ih =>
    obtain rfl : numbered = r.reverse ++ [x] := by simpa using congrArg List.reverse hr
    rw [tabulate_concat]
    exact place _ _ (ih _ (by simp))

theorem pairwise_tabulate (numbered : List (LineNumber × Statement)) :
    (numbersOf (tabulate numbered)).Pairwise (· < ·) := by
  refine tabulate_induction (P := fun _ table => (numbersOf table).Pairwise (· < ·)) .nil (fun numbered x ih => ?_) numbered
  rw [numbers_placeStatement]
  exact pairwise_insertAscending ih

theorem mem_numbers_tabulate (numbered : List (LineNumber × Statement)) (n : LineNumber) :
    n ∈ numbersOf (tabulate numbered) ↔ n ∈ numbered.map Prod.fst := by
  refine tabulate_induction (P := fun numbered table => n ∈ numbersOf table ↔ n ∈ numbered.map Prod.fst) (by simp)
    (fun numbered x ih => ?_) numbered
  rw [numbers_placeStatement, mem_insertAscending, ih]
  simp [or_comm]

theorem linesAt_concat_self (numbered : List (LineNumber × Statement)) (n : LineNumber) (s : Statement) :
    linesAt (numbered ++ [(n, s)]) n = linesAt numbered n ++ [(n, s)] := by
  simp [linesAt]

theorem linesAt_concat_other {m n : LineNumber} (h : m ≠ n) (numbered : List (LineNumber × Statement)) (s : Statement) :
    linesAt (numbered ++ [(n, s)]) m = linesAt numbered m := by
  simp [linesAt, Ne.symm h]

theorem linesAt_eq_nil {numbered : List (LineNumber × Statement)} {n : LineNumber} (h : n ∉ numbered.map Prod.fst) :
    linesAt numbered n = [] := by
  refine List.filter_eq_nil_iff.mpr fun x hx he => h ?_
  rw [← of_decide_eq_true he]
  exact List.mem_map_of_mem hx

theorem kept_tabulate (numbered : List (LineNumber × Statement)) : ∀ e ∈ tabulate numbered, Kept numbered e := by
  refine tabulate_induction (P := fun numbered table => ∀ e ∈ table, Kept numbered e) (by simp)
    (fun numbered x ih e he => ?_) numbered
  obtain ⟨n, s⟩ := x
  rcases mem_placeStatement (pairwise_tabulate numbered) he with ⟨hm, hn⟩ | ⟨old, ho, rfl, rfl⟩ | ⟨hn, rfl⟩
  · unfold Kept
    rw [linesAt_concat_other hn]
    exact ih e hm
  · obtain ⟨-, count⟩ := ih old ho
    rw [Kept, linesAt_concat_self, List.length_append, count]
    simp
  · rw [mem_numbers_tabulate] at hn
    rw [Kept, linesAt_concat_self, linesAt_eq_nil hn]
    simp

theorem length_tabulate (numbered : List (LineNumber × Statement)) :
    (repeatedNumbers (tabulate numbered)).length + (tabulate numbered).length = numbered.length := by
  refine tabulate_induction
    (P := fun numbered table => (repeatedNumbers table).length + table.length = numbered.length) rfl
    (fun numbered x ih => ?_) numbered
  rw [length_placeStatement, ih, List.length_append]
  rfl

theorem repeatedNumbers_tabulate (numbered : List (LineNumber × Statement)) :
    repeatedNumbers (tabulate numbered) = (numbersOf (tabulate numbered)).flatMap fun n =>
      List.replicate ((linesAt numbered n).length - 1) n := by
  rw [numbersOf, List.flatMap_map, repeatedNumbers, List.flatMap_def, List.flatMap_def]
  refine congrArg List.flatten (List.map_congr_left fun e he => ?_)
  rw [(kept_tabulate numbered e he).2, Nat.add_sub_cancel]

theorem mem_repeatedNumbers {numbered : List (LineNumber × Statement)} {n : LineNumber} :
    n ∈ repeatedNumbers (tabulate numbered) ↔ 1 < (linesAt numbered n).length := by
  rw [repeatedNumbers_tabulate, List.mem_flatMap]
  constructor
  · rintro ⟨m, -, hm⟩
    obtain ⟨some, rfl⟩ := List.mem_replicate.mp hm
    omega
  · intro again
    have given : n ∈ numbered.map Prod.fst := by
      refine Decidable.byContradiction fun none => ?_
      rw [linesAt_eq_nil none] at again
      exact absurd again (Nat.not_lt_zero 1)
    exact ⟨n, (mem_numbers_tabulate numbered n).mpr given, List.mem_replicate.mpr ⟨by omega, rfl⟩⟩

/-! ## (3) Warnings -/

namespace Warning

/-- The number that is warned of. -/
def number : Warning → LineNumber
  | repeatedLine number _ => number

theorem ofRepeat_ok_iff {n : LineNumber} {w : Warning} : ofRepeat n = .ok w ↔ w.number = n := by
  constructor
  · intro h
    unfold ofRepeat at h
    split at h
    · cases h
      rfl
    · cases h
  · rintro rfl
    cases w with
    | repeatedLine n short => exact dif_pos short

theorem ofRepeat_error_iff {n : LineNumber} {f : Failure} :
    ofRepeat n = .error f ↔ Rule.digitLimit < digitCount n ∧ f = .tooManyDigits none := by
  unfold ofRepeat
  split
  · rename_i short
    simp [Nat.not_lt.mpr short]
  · rename_i long
    simp [Nat.lt_of_not_le long, eq_comm]

/-- The warnings are those of the numbers, one by one. -/
theorem mapM_ok_iff {ns : List LineNumber} {ws : List Warning} :
    ns.mapM ofRepeat = .ok ws ↔ ws.map number = ns := by
  induction ns generalizing ws with
  | nil =>
    show Except.ok [] = Except.ok ws ↔ _
    simp [eq_comm]
  | cons n ns ih =>
    rw [List.mapM_cons]
    constructor
    · intro h
      cases hn : ofRepeat n with
      | error f =>
        rw [hn] at h
        cases h
      | ok w =>
        cases hns : ns.mapM ofRepeat with
        | error f =>
          rw [hn, hns] at h
          cases h
        | ok later =>
          rw [hn, hns] at h
          cases h
          rw [List.map_cons, ofRepeat_ok_iff.mp hn, ih.mp hns]
    · intro h
      obtain ⟨w, later, rfl, hw, hlater⟩ := List.map_eq_cons_iff.mp h
      rw [ofRepeat_ok_iff.mpr hw, ih.mpr hlater]
      rfl

/-- There are no warnings if and only if one of the numbers cannot be written. -/
theorem mapM_error_iff {ns : List LineNumber} {f : Failure} :
    ns.mapM ofRepeat = .error f ↔ (∃ n ∈ ns, Rule.digitLimit < digitCount n) ∧ f = .tooManyDigits none := by
  induction ns with
  | nil =>
    show Except.ok [] = Except.error f ↔ _
    simp
  | cons n ns ih =>
    rw [List.mapM_cons]
    by_cases long : Rule.digitLimit < digitCount n
    · rw [ofRepeat_error_iff.mpr ⟨long, rfl⟩]
      show Except.error _ = Except.error f ↔ _
      simp [long, eq_comm]
    · have said : ofRepeat n = .ok (.repeatedLine n (Nat.le_of_not_lt long)) := dif_pos _
      have others : (∃ m ∈ n :: ns, Rule.digitLimit < digitCount m) ↔ ∃ m ∈ ns, Rule.digitLimit < digitCount m := by
        simp [long]
      rw [said, others, ← ih]
      cases ns.mapM ofRepeat with
      | error g => exact Iff.rfl
      | ok ws =>
        show Except.ok _ = Except.error f ↔ Except.ok _ = Except.error f
        simp

end Warning

/-- The number that a line before these has to name. -/
def firstNumber (numbers : List LineNumber) : LineNumber := numbers.head?.getD endOfProgram

theorem tabulate_ne_nil {numbered : List (LineNumber × Statement)} (h : numbered ≠ []) : tabulate numbered ≠ [] := by
  intro none
  have count := length_tabulate numbered
  rw [none] at count
  exact h (List.length_eq_zero_iff.mp count.symm)

theorem assemble_eq {numbered : List (LineNumber × Statement)} (h : numbered ≠ []) :
    assemble numbered = (repeatedNumbers (tabulate numbered)).mapM Warning.ofRepeat >>= fun ws =>
      pure (⟨firstNumber (numbersOf (tabulate numbered)), linkLines (tabulate numbered)⟩, ws) := by
  obtain ⟨first, others, ht⟩ := List.exists_cons_of_ne_nil (tabulate_ne_nil h)
  rw [assemble, ht]
  rfl

/-- Statements make one program, with a warning for each repeat. -/
theorem assemble_ok_iff {numbered : List (LineNumber × Statement)} {p : Program} {ws : List Warning} :
    assemble numbered = .ok (p, ws) ↔ numbered ≠ [] ∧
      p = ⟨firstNumber (numbersOf (tabulate numbered)), linkLines (tabulate numbered)⟩ ∧
      ws.map Warning.number = repeatedNumbers (tabulate numbered) := by
  by_cases hne : numbered = []
  · subst hne
    show Except.error _ = Except.ok _ ↔ _
    simp
  · rw [assemble_eq hne, ← Warning.mapM_ok_iff]
    cases (repeatedNumbers (tabulate numbered)).mapM Warning.ofRepeat with
    | error f =>
      show Except.error f = Except.ok _ ↔ _ ∧ _ ∧ Except.error f = Except.ok _
      simp
    | ok ws' =>
      show Except.ok (_, ws') = Except.ok (p, ws) ↔ _ ∧ _ ∧ Except.ok ws' = Except.ok ws
      simp [hne, eq_comm]

/-- Statements make no program if there are none of them, or if a number that comes again has too many digits. -/
theorem assemble_error_iff {numbered : List (LineNumber × Statement)} {f : Failure} :
    assemble numbered = .error f ↔ numbered = [] ∧ f = .emptyProgram ∨
      (∃ n, 1 < (linesAt numbered n).length ∧ Rule.digitLimit < digitCount n) ∧ f = .tooManyDigits none := by
  by_cases hne : numbered = []
  · subst hne
    show Except.error _ = Except.error f ↔ _
    simp [linesAt, eq_comm]
  · have failed : assemble numbered = .error f ↔
        (repeatedNumbers (tabulate numbered)).mapM Warning.ofRepeat = .error f := by
      rw [assemble_eq hne]
      cases (repeatedNumbers (tabulate numbered)).mapM Warning.ofRepeat with
      | error g =>
        show Except.error g = Except.error f ↔ Except.error g = Except.error f
        simp
      | ok ws =>
        show Except.ok _ = Except.error f ↔ Except.ok ws = Except.error f
        simp
    rw [failed, Warning.mapM_error_iff]
    simp [hne, mem_repeatedNumbers]

theorem assemble_ok {numbered : List (LineNumber × Statement)} (hne : numbered ≠ [])
    (short : ∀ n, 1 < (linesAt numbered n).length → digitCount n ≤ Rule.digitLimit) :
    ∃ p ws, assemble numbered = .ok (p, ws) := by
  cases h : assemble numbered with
  | ok result => exact ⟨result.1, result.2, rfl⟩
  | error f =>
    rcases assemble_error_iff.mp h with ⟨none, -⟩ | ⟨⟨n, again, long⟩, -⟩
    · exact absurd none hne
    · exact absurd (short n again) (Nat.not_le_of_lt long)

end LineBasic
