import LineBasic.Proofs.Cutting
import LineBasic.Proofs.Keeping
import LineBasic.Proofs.Whole

/-
  LineBasic.Proofs.Expected — what an error expects is acceptable where it is expected.

  Two runs are compared: that of a text which is rejected, and that of the same text up to the error with something
  expected behind it. Before the farthest miss the first run does not depend on what comes behind (`cut_statement`). So
  if the end of the line was missed there, the text up to there is a line (`ofText_to_end`). If a word was missed, it
  was missed at the end of that text. Were the text with the word rejected before the last character of the word, the
  word would not depend on that character and would be missed where it stands (`not_rejected_before`); and a number of
  too many digits would be in the text before it (`not_overflows_behind`).
-/

namespace LineBasic

variable {α : Type}

/-! ## Quoted texts -/

namespace Text

/-- A character inside quotes stands for itself or is written with a backslash. -/
theorem escape_plain (quote c : Char) : escape quote c = [c] ∨ '\\' ∈ escape quote c := by
  have coded : '\\' ∈ codePointEscape c := by
    unfold codePointEscape
    dsimp only
    split
    · simp
    · split <;> simp
  unfold escape
  by_cases hplain : isPrintable c = true
  · repeat' split
    all_goals simp
  · repeat' split
    all_goals simp [coded]

/-- What is written inside quotes without a backslash is the text itself. -/
theorem eq_of_escaped {quote : Char} {t : Text} (h : '\\' ∉ t.flatMap (escape quote)) :
    t.flatMap (escape quote) = t := by
  induction t with
  | nil => rfl
  | cons c t ih =>
    rw [List.flatMap_cons] at h ⊢
    obtain ⟨hc, ht⟩ := not_or.mp (mt List.mem_append.mpr h)
    have plain := (escape_plain quote c).resolve_right hc
    rw [plain, ih ht, List.singleton_append]

theorem quoted_inj_plain {s t : Text} (hs : '\\' ∉ quoted s) (h : quoted t = quoted s) : t = s := by
  have inner (t : Text) (ht : '\\' ∉ quoted t) : quoted t = quoteFor t :: t ++ [quoteFor t] := by
    have plain : '\\' ∉ t.flatMap (escape (quoteFor t)) := by
      intro hm
      exact ht (by simp [quoted, hm])
    rw [quoted, eq_of_escaped plain]
  have both := (inner t (h ▸ hs)).symm.trans (h.trans (inner s hs))
  obtain ⟨hq, hr⟩ := List.cons.inj both
  rw [hq] at hr
  exact List.append_cancel_right hr

end Text

/-! ## What is read before the error -/

namespace Rule

variable {p : Rule α} {c : Cursor} {y : Text}

/-- A text that is rejected has not been looked at behind the farthest miss. -/
theorem near_whole {n : Nat} (hm : (p.whole.run c).outcome = .missing) (hw : (p.whole.run c).Within n) :
    (p.run c).Near n y := by
  refine ⟨fun m h => hw m (misses_bind _ h), fun v d h => ?_, fun cause h => ?_⟩
  · rw [run_whole h] at hm hw
    by_cases hend : d.skip.rest = []
    · rw [if_pos hend] at hm
      cases hm
    · rw [if_neg hend] at hw
      have reached := hw ⟨d.ahead, .endOfLine⟩ (List.mem_append_right _ (List.mem_singleton_self _))
      exact Nat.le_trans d.offset_le_ahead reached
  · rw [whole, run_bind_aborted h] at hm
    cases hm

end Rule

namespace Grammar

open Rule

variable {u y : Text} {word : String} {c : Cursor}

theorem composed_line (c : Cursor) : Composed lineWords True statement c :=
  composed_statement (c.rest.length + 1) c (Nat.lt_succ_self _)

theorem attentive_line (c : Cursor) : Attentive lineWords c (statement.run c) := (composed_line c).attentive

/-- Nothing is missed behind the end. -/
theorem whole_within (c : Cursor) : (statement.whole.run c).Within c.stop := by
  intro m hm
  rcases mem_misses_whole hm with h | ⟨v, d, hd, rfl⟩
  · exact ((attentive_line c).between h).2
  · obtain ⟨s, hs⟩ := advances_statement c v d hd
    rw [hs.stop]
    exact Nat.add_le_add_left (List.takeWhile_prefix _).length_le _

/-- Before the farthest miss, a text that is rejected is read as if nothing came behind it. -/
theorem cut_statement (hm : (statement.whole.run ⟨0, u ++ y⟩).outcome = .missing)
    (hw : (statement.whole.run ⟨0, u ++ y⟩).Within u.length) :
    statement.run ⟨0, u ++ y⟩ = (statement.run ⟨0, u⟩).extend y := by
  apply (composed_line _).cut rfl
  rw [Nat.zero_add]
  exact near_whole hm hw

theorem not_aborted_before (hm : (statement.whole.run ⟨0, u ++ y⟩).outcome = .missing)
    (hw : (statement.whole.run ⟨0, u ++ y⟩).Within u.length) : ¬ (statement.run ⟨0, u⟩).Aborts := by
  rintro ⟨cause, h⟩
  have aborted : (statement.run ⟨0, u ++ y⟩).outcome = .aborted cause := by
    rw [cut_statement hm hw]
    exact Reply.aborted_extend.mpr h
  rw [whole, run_bind_aborted aborted] at hm
  cases hm

/-- Where the end of the line is missed, the text may end. -/
theorem ofText_to_end (hm : (statement.whole.run ⟨0, u ++ y⟩).outcome = .missing)
    (hw : (statement.whole.run ⟨0, u ++ y⟩).Within u.length)
    (he : ⟨u.length, .endOfLine⟩ ∈ (statement.whole.run ⟨0, u ++ y⟩).misses) : ∃ v, Statement.ofText u = .ok v := by
  obtain ⟨v, d, hd, place⟩ : ∃ v d, (statement.run ⟨0, u ++ y⟩).outcome = .found v d ∧ u.length = d.ahead := by
    rcases mem_misses_whole he with h | ⟨v, d, hd, place⟩
    · obtain ⟨_, _, _, _, absent⟩ := (attentive_line _).misses _ h
      exact False.elim absent
    · exact ⟨v, d, hd, congrArg Miss.offset place⟩
  rw [cut_statement hm hw] at hd
  obtain ⟨e, he, rfl⟩ := Reply.found_extend hd
  obtain ⟨s, hs⟩ := advances_statement _ _ _ he
  have finish : u.length = e.offset + e.rest.length := by simpa using hs.finish
  -- Only spaces are left of the text before the miss.
  have spaces : ((e.rest ++ y).takeWhile isSpace).length = e.rest.length := by
    have : u.length = e.offset + ((e.rest ++ y).takeWhile isSpace).length := place
    omega
  have rest : e.skip.rest = [] := by
    rw [takeWhile_cut (Nat.le_of_eq spaces)] at spaces
    have both := congrArg List.length (List.takeWhile_append_dropWhile (p := isSpace) (l := e.rest))
    rw [List.length_append] at both
    apply List.eq_nil_of_length_eq_zero
    show (e.rest.dropWhile isSpace).length = 0
    omega
  refine ⟨v, parse_eq_ok.mpr ⟨e.skip, ?_⟩⟩
  rw [run_whole he, if_pos rest]

/-! ## A word that is missed -/

theorem lacks_before (hm : (statement.whole.run ⟨0, u ++ y⟩).outcome = .missing)
    (hw : (statement.whole.run ⟨0, u ++ y⟩).Within u.length)
    (he : ⟨u.length, .symbol word⟩ ∈ (statement.whole.run ⟨0, u ++ y⟩).misses) : Lacks word statement ⟨0, u⟩ := by
  rcases mem_misses_whole he with h | ⟨_, _, _, h⟩
  · rw [cut_statement hm hw, Reply.misses_extend] at h
    unfold Lacks Cursor.stop
    rwa [Nat.zero_add]
  · cases congrArg Miss.wanted h

/-- Text without digits does not make a text count too many digits. -/
theorem not_overflows_behind {x : Text} (hu : ¬ (statement.run ⟨0, u⟩).Aborts) (hx : ∀ ch ∈ x, ch.isDigit = false) :
    ¬ (statement.run ⟨0, u ++ x⟩).Overflows := by
  intro ho
  obtain ⟨s, ch, k, hrest, hdigit, within⟩ := tidy_statement ⟨0, u ++ x⟩ ho
  have inside : s.length ≤ u.length := by
    apply Nat.le_of_not_lt
    intro hlt
    obtain ⟨r, rfl⟩ := List.prefix_of_prefix_length_le (List.prefix_append u x) ⟨_, hrest.symm⟩ (Nat.le_of_lt hlt)
    rw [List.append_assoc, List.append_cancel_left_eq] at hrest
    have := hx ch (by rw [hrest]; simp)
    rw [hdigit] at this
    cases this
  obtain ⟨count, hcount⟩ := ho
  have near : (statement.run ⟨0, u ++ x⟩).Near (0 + u.length) x := by
    refine ⟨within.mono (Nat.add_le_add_left inside 0), fun v d h => ?_, fun cause h => ⟨⟨count, ?_⟩, hx⟩⟩
    · rw [hcount] at h
      cases h
    · rw [hcount] at h
      cases h
      rfl
  rw [(composed_line _).cut rfl near] at hcount
  exact hu ⟨_, Reply.aborted_extend.mp hcount⟩

/-- With the word that was missed at its end, a text is not rejected before the end of that word. -/
theorem not_rejected_before (hl : Lacks word statement ⟨0, u⟩) (hmem : word ∈ lineWords)
    (hm : (statement.whole.run ⟨0, u ++ word.toList⟩).outcome = .missing) {n : Nat}
    (hw : (statement.whole.run ⟨0, u ++ word.toList⟩).Within n) : u.length + word.toList.length ≤ n := by
  have nonempty : ∀ word ∈ lineWords, word.toList ≠ [] := by decide
  obtain ⟨a, x, hx⟩ := (List.eq_nil_or_concat word.toList).resolve_left (nonempty word hmem)
  rw [List.concat_eq_append] at hx
  apply Nat.le_of_not_lt
  intro hlt
  have text : u ++ word.toList = u ++ a ++ [x] := by rw [hx, List.append_assoc]
  have early : (statement.whole.run ⟨0, u ++ a ++ [x]⟩).Within (u ++ a).length := by
    rw [← text]
    refine hw.mono ?_
    rw [hx] at hlt
    simp only [List.length_append, List.length_singleton] at hlt ⊢
    omega
  rw [text] at hm
  -- The word is missed where it begins although all but its last character is there, and so it is in the whole text.
  have missed : ⟨u.length, .symbol word⟩ ∈ (statement.run ⟨0, u ++ a⟩).misses := by
    have place : Cursor.stop ⟨0, u⟩ = u.length := Nat.zero_add _
    by_cases ha : a = []
    · subst ha
      rw [List.append_nil, ← place]
      exact hl
    · have begun : Begun word a := ⟨hmem, ⟨x, hx⟩, ha⟩
      rw [← place]
      exact (begun.keeps_statement ⟨0, u⟩ hl).resolve_right (not_aborted_before hm early)
  rw [← Reply.misses_extend [x], ← cut_statement hm early, ← text] at missed
  obtain ⟨s, k, hs, place, -, absent⟩ := (attentive_line _).misses _ missed
  have same : u.length = s.length := by simpa using place
  obtain ⟨-, rfl⟩ := List.append_inj hs same
  exact absent (List.prefix_refl _)

/-- A line with the word that was missed at its end. -/
theorem ofText_with_word (hu : ¬ (statement.run ⟨0, u⟩).Aborts) (hl : Lacks word statement ⟨0, u⟩)
    (hmem : word ∈ lineWords) :
    (∃ v, Statement.ofText (u ++ word.toList) = .ok v) ∨
    ∃ e : ParseError, Statement.ofText (u ++ word.toList) = .error (.badText e) ∧
      (e.fatal = true ∨ e.fatal = false ∧ e.offset = u.length + word.toList.length) := by
  cases ho : (statement.whole.run ⟨0, u ++ word.toList⟩).outcome with
  | found v d => exact .inl ⟨v, parse_eq_ok.mpr ⟨d, ho⟩⟩
  | missing =>
    right
    refine ⟨_, parse_missing ho, .inr ⟨rfl, ?_⟩⟩
    obtain ⟨-, reached, attained⟩ :=
      (Frontier.start 0).farthest_recordAll (statement.whole.run ⟨0, u ++ word.toList⟩).misses
    apply Nat.le_antisymm
    · rcases attained with h | ⟨m, hm, h⟩
      · exact Nat.le_trans (Nat.le_of_eq h) (Nat.zero_le _)
      · have inside := whole_within _ m hm
        rw [h, Cursor.stop, Nat.zero_add, List.length_append] at inside
        exact inside
    · exact not_rejected_before hl hmem ho reached
  | aborted cause =>
    cases cause with
    | unknownFunction offset name =>
      refine .inr ⟨.stop offset ("unknown function " ++ String.ofList name), ?_, .inl rfl⟩
      simp only [Statement.ofText, parse, parseSpan, ho]
      rfl
    | tooManyDigits count =>
      have digitless : ∀ word ∈ lineWords, (word.toList.all fun ch => !ch.isDigit) = true := by decide
      have none := List.all_eq_true.mp (digitless word hmem)
      exact absurd ⟨count, aborted_of_whole ho⟩ (not_overflows_behind hu fun ch hch => by simpa using none ch hch)

/-! ## What is missed in a line -/

/-- What a line may miss that is no word. -/
def otherWanted : List Wanted :=
  [.integer, .realNumber, .variableName, .quotedText, .functionName, .inputOperand, .endOfLine]

theorem wanted_in_line {o : Nat} {w : Wanted} (h : ⟨o, w⟩ ∈ (statement.whole.run c).misses) :
    (∃ word ∈ lineWords, w = .symbol word) ∨ w ∈ otherWanted := by
  rcases mem_misses_whole h with h | ⟨_, _, _, h⟩
  · obtain ⟨_, k, _, _, absent⟩ := (attentive_line _).misses _ h
    cases w with
    | symbol word => exact .inl ⟨word, absent.1, rfl⟩
    | integer | realNumber | variableName | quotedText | functionName | inputOperand => exact .inr (by decide)
    | endOfLine | lineNumber | blanks | statement | other description => exact False.elim absent
  · cases congrArg Miss.wanted h
    exact .inr (by decide)

/-- Only a word is described in quotes. -/
theorem word_of_quoted {o : Nat} {w : Wanted} {x : Text} (h : ⟨o, w⟩ ∈ (statement.whole.run c).misses)
    (hw : w.describe = String.ofList (Text.quoted x)) : ∃ word ∈ lineWords, w = .symbol word ∧ word.toList = x := by
  rcases wanted_in_line h with ⟨word, hmem, rfl⟩ | hother
  · have plain : ∀ word ∈ lineWords, '\\' ∉ Text.quoted word.toList := by decide
    have same : Text.quoted x = Text.quoted word.toList := (String.ofList_injective hw).symm
    exact ⟨word, hmem, rfl, (Text.quoted_inj_plain (plain word hmem) same).symm⟩
  · have unquoted : ∀ w ∈ otherWanted, w.describe.toList.head? ≠ some '\'' ∧ w.describe.toList.head? ≠ some '"' := by
      decide
    have head : w.describe.toList.head? = some (Text.quoteFor x) := by
      rw [hw, String.toList_ofList]
      rfl
    obtain ⟨noSingle, noDouble⟩ := unquoted w hother
    unfold Text.quoteFor at head
    split at head
    · exact absurd head noDouble
    · exact absurd head noSingle

theorem end_of_described {o : Nat} {w : Wanted} (h : ⟨o, w⟩ ∈ (statement.whole.run c).misses)
    (hw : w.describe = "end of line") : w = .endOfLine := by
  rcases wanted_in_line h with ⟨word, hmem, rfl⟩ | hother
  · have quoted : ∀ word ∈ lineWords, (Wanted.symbol word).describe ≠ "end of line" := by decide
    exact absurd hw (quoted word hmem)
  · have only : ∀ w ∈ otherWanted, w.describe = "end of line" → w = .endOfLine := by decide
    exact only w hother hw

end Grammar

open Rule Grammar

/-- What the error of a line expects is acceptable where it is expected. If that is the end of the line, the text up
    to there is a line. If it is a word, the text up to there and that word are a line, or a function is called that
    does not exist, or the error is at the end of the word. -/
theorem ofText_expected {t : Text} {e : ParseError} (h : Statement.ofText t = .error (.badText e))
    (hf : e.fatal = false) :
    ("end of line" ∈ e.expected → ∃ v, Statement.ofText (t.take e.offset) = .ok v) ∧
    ∀ x : Text, String.ofList (Text.quoted x) ∈ e.expected →
      (∃ v, Statement.ofText (t.take e.offset ++ x) = .ok v) ∨
      ∃ e' : ParseError, Statement.ofText (t.take e.offset ++ x) = .error (.badText e') ∧
        (e'.fatal = true ∨ e'.fatal = false ∧ e'.offset = e.offset + x.length) := by
  obtain ⟨hm, hw, expected⟩ := parse_rejected h hf
  have split (w : Wanted) (hmiss : ⟨e.offset, w⟩ ∈ (statement.whole.run ⟨0, t⟩).misses) :
      ∃ u y, t = u ++ y ∧ u.length = e.offset := by
    have inside : e.offset ≤ 0 + t.length := whole_within _ _ hmiss
    rw [Nat.zero_add] at inside
    exact ⟨t.take e.offset, t.drop e.offset, (List.take_append_drop _ _).symm, List.length_take_of_le inside⟩
  constructor
  · intro hend
    obtain ⟨w, hmiss, hdescribe⟩ := expected _ hend
    obtain ⟨u, y, rfl, hu⟩ := split w hmiss
    rw [← hu] at hw hmiss ⊢
    rw [List.take_left]
    obtain rfl := end_of_described hmiss hdescribe
    exact ofText_to_end hm hw hmiss
  · intro x hx
    obtain ⟨w, hmiss, hquoted⟩ := expected _ hx
    obtain ⟨word, hmem, rfl, rfl⟩ := word_of_quoted hmiss hquoted
    obtain ⟨u, y, rfl, hu⟩ := split _ hmiss
    rw [← hu] at hw hmiss ⊢
    rw [List.take_left]
    exact ofText_with_word (not_aborted_before hm hw) (lacks_before hm hw hmiss) hmem

/-- Behind the limit of a loop the line may end, or a step may begin. -/
theorem ofText_expected_step :
    Statement.ofText "FOR I=1 TO 2 X".toList = .error (.badText (.wanting 13
      ["end of line", "'STEP'", "':'", "'-'", "'+'", "'/'", "'*'"])) ∧
    (∃ v, Statement.ofText "FOR I=1 TO 2 ".toList = .ok v) ∧
    ((∃ v, Statement.ofText ("FOR I=1 TO 2 ".toList ++ "STEP".toList) = .ok v) ∨
      ∃ e : ParseError, Statement.ofText ("FOR I=1 TO 2 ".toList ++ "STEP".toList) = .error (.badText e) ∧
        (e.fatal = true ∨ e.fatal = false ∧ e.offset = 17)) := by
  have rejected : Statement.ofText "FOR I=1 TO 2 X".toList = .error (.badText (.wanting 13
      ["end of line", "'STEP'", "':'", "'-'", "'+'", "'/'", "'*'"])) := by rfl
  obtain ⟨ends, goes_on⟩ := ofText_expected rejected rfl
  exact ⟨rejected, ends (by decide), goes_on "STEP".toList (by decide)⟩

end LineBasic
