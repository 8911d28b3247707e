import LineBasic.Program.Source
import LineBasic.Proofs.Entries
import LineBasic.Proofs.Shift

/-
  LineBasic.Proofs.Lines — a program is its lines, read one by one.

  The frame of a source text, the numbers of its lines and their statements are three stages, and each goes through all
  lines before the next one begins. A statement stands in the source where its line says (`at_of_frame`), and it is read
  there as it is read alone. So what a source text yields is told by its lines: the first line without a frame, else the
  first line whose number is too long, else the first line whose statement is refused alone, else the program of all
  numbers and trees.
-/

namespace LineBasic

/-! ## The first failure -/

section First

variable {α β ε : Type}

/-- `a` is the first member of the list that satisfies `P`. -/
def First (P : α → Prop) (l : List α) (a : α) : Prop :=
  ∃ before after, l = before ++ a :: after ∧ P a ∧ ∀ b ∈ before, ¬ P b

theorem First.cons {P : α → Prop} {l : List α} {a b : α} (h : First P l a) (hb : ¬ P b) : First P (b :: l) a := by
  obtain ⟨before, after, rfl, ha, hn⟩ := h
  refine ⟨b :: before, after, rfl, ha, fun c hc => ?_⟩
  rcases List.mem_cons.mp hc with rfl | hc
  · exact hb
  · exact hn c hc

/-- A list is gone through up to its first failure. -/
theorem mapM_outcome (f : α → Except ε β) (l : List α) :
    (∃ ys, l.mapM f = .ok ys ∧ l.map f = ys.map .ok) ∨
      ∃ a e, First (fun a => ∃ e, f a = .error e) l a ∧ f a = .error e ∧ l.mapM f = .error e := by
  induction l with
  | nil => exact .inl ⟨[], rfl, rfl⟩
  | cons a l ih =>
    rw [List.mapM_cons]
    cases ha : f a with
    | error e => exact .inr ⟨a, e, ⟨[], l, rfl, ⟨e, ha⟩, by simp⟩, ha, rfl⟩
    | ok y =>
      rcases ih with ⟨ys, hys, hmap⟩ | ⟨b, e, hfirst, hb, hl⟩
      · exact .inl ⟨y :: ys, by rw [hys]; rfl, by simp [ha, hmap]⟩
      · refine .inr ⟨b, e, hfirst.cons ?_, hb, by rw [hl]; rfl⟩
        rintro ⟨e', he'⟩
        rw [ha] at he'
        cases he'

theorem mapM_first_failure {f : α → Except ε β} {l : List α} (h : ∃ a ∈ l, ∃ e, f a = .error e) :
    ∃ a e, First (fun a => ∃ e, f a = .error e) l a ∧ f a = .error e ∧ l.mapM f = .error e := by
  rcases mapM_outcome f l with ⟨ys, -, hmap⟩ | h'
  · obtain ⟨a, ha, e, he⟩ := h
    have hm : f a ∈ ys.map Except.ok := hmap ▸ List.mem_map_of_mem ha
    obtain ⟨y, -, hy⟩ := List.mem_map.mp hm
    rw [he] at hy
    cases hy
  · exact h'

theorem mapM_all_ok {f : α → Except ε β} {l : List α} (h : ∀ a ∈ l, ∃ y, f a = .ok y) :
    ∃ ys, l.mapM f = .ok ys ∧ l.map f = ys.map .ok := by
  rcases mapM_outcome f l with h' | ⟨a, e, ⟨before, after, rfl, -, -⟩, he, -⟩
  · exact h'
  · obtain ⟨y, hy⟩ := h a (by simp)
    rw [he] at hy
    cases hy

theorem mapM_eq_map {f : α → Except ε β} {g : α → β} {l : List α} (h : ∀ a ∈ l, f a = .ok (g a)) :
    l.mapM f = .ok (l.map g) := by
  induction l with
  | nil => rfl
  | cons a l ih => rw [List.mapM_cons, h a (by simp), ih fun b hb => h b (by simp [hb])]; rfl

theorem mem_of_mapM {f : α → Except ε β} {l : List α} {ys : List β} (h : l.mapM f = .ok ys) {y : β} (hy : y ∈ ys) :
    ∃ a ∈ l, f a = .ok y := by
  rcases mapM_outcome f l with ⟨zs, hzs, hmap⟩ | ⟨a, e, -, -, he⟩
  · rw [h] at hzs
    cases hzs
    have hm : Except.ok y ∈ l.map f := hmap ▸ List.mem_map_of_mem hy
    simpa using hm
  · rw [h] at he
    cases he

end First

/-! ## Where the lines stand -/

/-- The text `s` stands in `t` at offset `o`. -/
def Text.At (t : Text) (o : Nat) (s : Text) : Prop := ∃ before after, t = before ++ s ++ after ∧ o = before.length

namespace Framing

theorem splitLines_head (o : Nat) (t : Text) : ∃ s rest, splitLines o t = ⟨o, s⟩ :: rest ∧ s <+: t := by
  fun_induction splitLines o t with
  | case1 => exact ⟨[], [], rfl, List.nil_prefix⟩
  | case2 => exact ⟨[], _, rfl, List.nil_prefix⟩
  | case3 => exact ⟨[], _, rfl, List.nil_prefix⟩
  | case4 o c rest _ _ ih =>
    obtain ⟨s, tail, hs, hp⟩ := ih
    rw [hs]
    exact ⟨c :: s, tail, rfl, List.cons_prefix_cons.mpr ⟨rfl, hp⟩⟩

/-- The line stands in a text that begins at offset `o`. -/
def SourceLine.StandsIn (line : SourceLine) (o : Nat) (t : Text) : Prop :=
  ∃ before after, t = before ++ line.text ++ after ∧ line.offset = o + before.length

theorem SourceLine.StandsIn.behind {line : SourceLine} {o n : Nat} {r t : Text} (h : line.StandsIn (o + n) t)
    (hn : n = r.length) : line.StandsIn o (r ++ t) := by
  obtain ⟨before, after, rfl, ho⟩ := h
  exact ⟨r ++ before, after, by simp, by rw [ho, hn, List.length_append, Nat.add_assoc]⟩

/-- Every line stands where it says. -/
theorem splitLines_standIn (o : Nat) (t : Text) : ∀ line ∈ splitLines o t, line.StandsIn o t := by
  fun_induction splitLines o t with
  | case1 o =>
    intro line hl
    cases List.mem_singleton.mp hl
    exact ⟨[], [], rfl, rfl⟩
  | case2 o rest ih =>
    intro line hl
    rcases List.mem_cons.mp hl with rfl | hl
    · exact ⟨[], _, rfl, rfl⟩
    · exact (ih line hl).behind (r := ['\r', '\n']) rfl
  | case3 o c rest _ _ ih =>
    intro line hl
    rcases List.mem_cons.mp hl with rfl | hl
    · exact ⟨[], _, rfl, rfl⟩
    · exact (ih line hl).behind (r := [c]) rfl
  | case4 o c rest _ _ ih =>
    intro line hl
    obtain ⟨s, tail, hs, hp⟩ := splitLines_head (o + 1) rest
    rw [hs] at ih hl
    rcases List.mem_cons.mp hl with rfl | hl
    · obtain ⟨after, rfl⟩ := hp
      exact ⟨[], after, rfl, rfl⟩
    · exact (ih line (List.mem_cons_of_mem _ hl)).behind (r := [c]) rfl

theorem mem_of_dropFinalEmpty {lines : List SourceLine} {line : SourceLine} (h : line ∈ dropFinalEmpty lines) :
    line ∈ lines := by
  cases lines with
  | nil => cases h
  | cons first rest =>
    simp only [dropFinalEmpty] at h
    rcases List.mem_cons.mp h with rfl | h
    · exact List.mem_cons_self
    · refine List.mem_cons_of_mem _ ?_
      split at h
      · exact (List.dropLast_sublist _).subset h
      · exact h

theorem frameLine_ok {line : SourceLine} {l : NumberedLine} (h : frameLine line = .ok l) :
    (l.digits ≠ [] ∧ ∀ c ∈ l.digits, c.isDigit = true) ∧
      ∃ read, line.text = read ++ l.statement ∧ l.offset = line.offset + read.length := by
  simp only [frameLine] at h
  split at h
  · cases h
  · rename_i some
    split at h
    · cases h
    · split at h
      · cases h
      · cases h
        refine ⟨⟨some, List.all_eq_true.mp List.all_takeWhile⟩,
          line.text.takeWhile Char.isDigit ++ (line.text.dropWhile Char.isDigit).takeWhile isBlank, ?_, ?_⟩
        · rw [List.append_assoc, List.takeWhile_append_dropWhile, List.takeWhile_append_dropWhile]
        · rw [List.length_append, Nat.add_assoc]

theorem sourceLines_ne_nil (source : Text) : sourceLines source ≠ [] := by
  obtain ⟨s, rest, hs, -⟩ := splitLines_head 0 source
  simp [sourceLines, hs, dropFinalEmpty]

/-- The statement of a framed line stands in the source where the line says. -/
theorem at_of_frame {source : Text} {lines : List NumberedLine} (h : frame source = .ok lines) :
    ∀ l ∈ lines, source.At l.offset l.statement := by
  intro l hl
  obtain ⟨line, hm, hf⟩ := mem_of_mapM h hl
  obtain ⟨before, after, ht, ho⟩ := splitLines_standIn 0 source line (mem_of_dropFinalEmpty hm)
  obtain ⟨-, read, hr, ho'⟩ := frameLine_ok hf
  refine ⟨before ++ read, after, ?_, ?_⟩
  · rw [ht, hr]
    simp
  · rw [ho', ho, List.length_append]
    omega

/-- The number of a framed line, written again, has no more digits than in the source. -/
theorem digitCount_of_frame {source : Text} {lines : List NumberedLine} (h : frame source = .ok lines) :
    ∀ l ∈ lines, digitCount (decimalValue l.digits) ≤ l.digits.length := by
  intro l hl
  obtain ⟨line, -, hf⟩ := mem_of_mapM h hl
  obtain ⟨⟨some, digits⟩, -⟩ := frameLine_ok hf
  exact digitCount_decimalValue some digits

/-- The statement of a line is read as it is read alone, but for the offset in the failure. -/
theorem NumberedLine.parse_eq (l : NumberedLine) :
    l.parse = (Statement.ofText l.statement).mapError (Failure.shift l.offset) :=
  Rule.parseSpan_eq_parse (fun _ => Grammar.shifts_statement) l.offset l.statement

theorem NumberedLine.parse_error {l : NumberedLine} {f : Failure} :
    l.parse = .error f ↔ ∃ alone, Statement.ofText l.statement = .error alone ∧ f = alone.shift l.offset := by
  rw [l.parse_eq]
  cases Statement.ofText l.statement with
  | ok s =>
    constructor
    · intro h
      cases h
    · rintro ⟨alone, h, -⟩
      cases h
  | error alone =>
    constructor
    · intro h
      cases h
      exact ⟨alone, rfl, rfl⟩
    · rintro ⟨_, h, rfl⟩
      cases h
      rfl

theorem NumberedLine.parse_ok {l : NumberedLine} {s : Statement} :
    l.parse = .ok s ↔ Statement.ofText l.statement = .ok s := by
  rw [l.parse_eq]
  cases Statement.ofText l.statement with
  | ok s => exact Iff.rfl
  | error alone =>
    constructor
    · intro h
      cases h
    · intro h
      cases h

end Framing

/-! ## The stages -/

open Framing

theorem ofSource_of_frame_error {source : Text} {e : ParseError} (h : frame source = .error e) :
    Program.ofSource source = .error (.badText e) := by
  unfold Program.ofSource
  rw [h]
  rfl

theorem ofSource_of_number_error {source : Text} {lines : List NumberedLine} {f : Failure} (h : frame source = .ok lines)
    (hn : lines.mapM NumberedLine.number = .error f) : Program.ofSource source = .error f := by
  unfold Program.ofSource
  rw [h]
  show (lines.mapM NumberedLine.number >>= fun numbers => lines.mapM NumberedLine.parse >>= fun statements =>
    assemble (numbers.zip statements)) = _
  rw [hn]
  rfl

theorem ofSource_of_numbers {source : Text} {lines : List NumberedLine} {numbers : List Int}
    (h : frame source = .ok lines) (hn : lines.mapM NumberedLine.number = .ok numbers) :
    Program.ofSource source = (lines.mapM NumberedLine.parse >>= fun statements => assemble (numbers.zip statements)) := by
  unfold Program.ofSource
  rw [h]
  show (lines.mapM NumberedLine.number >>= fun numbers => lines.mapM NumberedLine.parse >>= fun statements =>
    assemble (numbers.zip statements)) = _
  rw [hn]
  rfl

theorem number_error {l : NumberedLine} {f : Failure} :
    l.number = .error f ↔ Rule.digitLimit < l.digits.length ∧ f = .lineNumberTooLong l.digits.length := by
  unfold NumberedLine.number
  split
  · rename_i h
    simpa [h] using eq_comm
  · rename_i h
    simp [h]

section Framed

variable {source : Text} {lines : List NumberedLine} (hframe : frame source = .ok lines)

include hframe

theorem ofSource_long_number (h : ∃ l ∈ lines, Rule.digitLimit < l.digits.length) :
    ∃ l, First (fun l => Rule.digitLimit < l.digits.length) lines l ∧
      Program.ofSource source = .error (.lineNumberTooLong l.digits.length) := by
  obtain ⟨l, hl, hlong⟩ := h
  obtain ⟨l, f, ⟨before, after, rfl, -, hb⟩, hf, hm⟩ :=
    mapM_first_failure (f := NumberedLine.number) ⟨l, hl, _, number_error.mpr ⟨hlong, rfl⟩⟩
  obtain ⟨hlong, rfl⟩ := number_error.mp hf
  refine ⟨l, ⟨before, after, rfl, hlong, fun b hm hlong => ?_⟩, ofSource_of_number_error hframe hm⟩
  exact hb b hm ⟨_, number_error.mpr ⟨hlong, rfl⟩⟩

theorem ofSource_of_short_numbers (hshort : ∀ l ∈ lines, l.digits.length ≤ Rule.digitLimit) :
    Program.ofSource source = (lines.mapM NumberedLine.parse >>= fun statements =>
      assemble ((lines.map fun l => (decimalValue l.digits : Int)).zip statements)) :=
  ofSource_of_numbers hframe (mapM_eq_map fun l hl => if_neg (Nat.not_lt_of_le (hshort l hl)))

theorem ofSource_refused (hshort : ∀ l ∈ lines, l.digits.length ≤ Rule.digitLimit)
    (h : ∃ l ∈ lines, ∃ f, Statement.ofText l.statement = .error f) :
    ∃ l f, First (fun l => ∃ f, Statement.ofText l.statement = .error f) lines l ∧
      Statement.ofText l.statement = .error f ∧ Program.ofSource source = .error (f.shift l.offset) := by
  obtain ⟨l, hl, alone, halone⟩ := h
  obtain ⟨l, f, ⟨before, after, rfl, -, hb⟩, hf, hm⟩ :=
    mapM_first_failure (f := NumberedLine.parse) ⟨l, hl, _, NumberedLine.parse_error.mpr ⟨alone, halone, rfl⟩⟩
  obtain ⟨alone, halone, rfl⟩ := NumberedLine.parse_error.mp hf
  refine ⟨l, alone, ⟨before, after, rfl, ⟨alone, halone⟩, ?_⟩, halone, ?_⟩
  · rintro b hm ⟨f, hf⟩
    exact hb b hm ⟨_, NumberedLine.parse_error.mpr ⟨f, hf, rfl⟩⟩
  · rw [ofSource_of_short_numbers hframe hshort, hm]
    rfl

theorem ofSource_assembled (hne : lines ≠ []) (hshort : ∀ l ∈ lines, l.digits.length ≤ Rule.digitLimit)
    (h : ∀ l ∈ lines, ∃ s, Statement.ofText l.statement = .ok s) :
    ∃ numbered result, numbered.map (fun n => (n.1, Except.ok n.2)) =
        lines.map (fun l => ((decimalValue l.digits : Int), Statement.ofText l.statement)) ∧
      assemble numbered = .ok result ∧ Program.ofSource source = .ok result := by
  obtain ⟨trees, htrees, hmaps⟩ := mapM_all_ok (f := NumberedLine.parse) fun l hl => by
    obtain ⟨s, hs⟩ := h l hl
    exact ⟨s, NumberedLine.parse_ok.mpr hs⟩
  have alone : lines.map (fun l => Statement.ofText l.statement) = trees.map .ok := by
    rw [← hmaps]
    refine List.map_congr_left fun l hl => ?_
    obtain ⟨s, hs⟩ := h l hl
    rw [hs, NumberedLine.parse_ok.mpr hs]
  have pairs : lines.map (fun l => ((decimalValue l.digits : Int), Statement.ofText l.statement)) =
      (lines.map fun l => (decimalValue l.digits : Int)).zip (lines.map fun l => Statement.ofText l.statement) :=
    List.zip_map'.symm
  have length : trees.length = lines.length := by simpa using (congrArg List.length hmaps).symm
  have some : (lines.map fun l => (decimalValue l.digits : Int)).zip trees ≠ [] := by
    simpa [List.zip_eq_nil_iff, ← List.length_eq_zero_iff, length] using hne
  have short : ∀ n, 1 < (linesAt ((lines.map fun l => (decimalValue l.digits : Int)).zip trees) n).length →
      digitCount n ≤ Rule.digitLimit := by
    intro n again
    obtain ⟨x, hx⟩ := List.exists_mem_of_length_pos (Nat.lt_trans Nat.zero_lt_one again)
    obtain ⟨hm, hn⟩ := List.mem_filter.mp hx
    obtain ⟨l, hl, hnumber⟩ := List.mem_map.mp (List.of_mem_zip hm).1
    obtain rfl : (decimalValue l.digits : Int) = n := hnumber.trans (of_decide_eq_true hn)
    exact Nat.le_trans (digitCount_of_frame hframe l hl) (hshort l hl)
  obtain ⟨p, ws, hresult⟩ := assemble_ok some short
  refine ⟨_, (p, ws), ?_, hresult, ?_⟩
  · rw [pairs, alone, List.zip_map_right]
    rfl
  · rw [ofSource_of_short_numbers hframe hshort, htrees]
    exact hresult

end Framed

/-- The frame, then the numbers, then the statements, and in each stage the first line that fails. -/
theorem ofSource_stages (source : Text) :
    ((∃ line ∈ sourceLines source, ∃ e, frameLine line = .error e) →
      ∃ line e, First (fun line => ∃ e, frameLine line = .error e) (sourceLines source) line ∧
        frameLine line = .error e ∧ Program.ofSource source = .error (.badText e)) ∧
    ((∀ line ∈ sourceLines source, ∃ l, frameLine line = .ok l) → ∃ lines, frame source = .ok lines ∧ lines ≠ [] ∧
      (∀ l ∈ lines, source.At l.offset l.statement) ∧
      ((∃ l ∈ lines, Rule.digitLimit < l.digits.length) →
        ∃ l, First (fun l => Rule.digitLimit < l.digits.length) lines l ∧
          Program.ofSource source = .error (.lineNumberTooLong l.digits.length)) ∧
      ((∀ l ∈ lines, l.digits.length ≤ Rule.digitLimit) →
        ((∃ l ∈ lines, ∃ f, Statement.ofText l.statement = .error f) →
          ∃ l f, First (fun l => ∃ f, Statement.ofText l.statement = .error f) lines l ∧
            Statement.ofText l.statement = .error f ∧ Program.ofSource source = .error (f.shift l.offset) ∧
            ∀ e, f = .badText e → (f.shift l.offset).message source =
              "Line " ++ toString (source.position (l.offset + e.offset)).line ++ ", column " ++
                toString (source.position (l.offset + e.offset)).column ++ ": " ++ e.description) ∧
        ((∀ l ∈ lines, ∃ s, Statement.ofText l.statement = .ok s) →
          ∃ numbered result, numbered.map (fun n => (n.1, Except.ok n.2)) =
              lines.map (fun l => ((decimalValue l.digits : Int), Statement.ofText l.statement)) ∧
            assemble numbered = .ok result ∧ Program.ofSource source = .ok result))) := by
  constructor
  · intro h
    obtain ⟨line, e, hfirst, he, hl⟩ := mapM_first_failure h
    exact ⟨line, e, hfirst, he, ofSource_of_frame_error hl⟩
  intro hok
  obtain ⟨lines, hlines, hmap⟩ := mapM_all_ok hok
  have hframe : frame source = .ok lines := hlines
  have hne : lines ≠ [] := by
    rintro rfl
    exact sourceLines_ne_nil source (List.map_eq_nil_iff.mp hmap)
  refine ⟨lines, hframe, hne, at_of_frame hframe, ofSource_long_number hframe, fun hshort => ⟨?_, ?_⟩⟩
  · intro h
    obtain ⟨l, f, hfirst, hf, hs⟩ := ofSource_refused hframe hshort h
    refine ⟨l, f, hfirst, hf, hs, ?_⟩
    rintro e rfl
    rw [Nat.add_comm]
    rfl
  · exact ofSource_assembled hframe hne hshort

end LineBasic
