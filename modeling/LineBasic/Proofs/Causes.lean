import LineBasic.Proofs.Cutting
import LineBasic.Proofs.Whole

/-
  LineBasic.Proofs.Causes — every failure has its cause in the span that was read.

  A reading ends in vain in three ways, and each is told by what is ahead.

  (1) A rule aborts only on a name before a parenthesis that is that of no function, or on a run of too many digits
      (`Cause`, `Composed.has_cause`).
  (2) A rule that finds nothing has missed something, and behind what it finds the end may be missed. So a span that is
      rejected has been missed something in, and the farthest of it makes the error (`error_within`).
  (3) So it is for every rule that has a name (`failure_in_span`). Nothing is ahead in a span that ends before it
      begins, and there every rule misses something where the span begins.
-/

namespace LineBasic

open Rule Grammar

variable {α β : Type} {p q : Rule α} {f : α → Rule β} {c d : Cursor} {cause : Abort}

/-! ## (1) What a rule aborts on -/

/-- The cause of an abort is ahead of the cursor. -/
inductive Cause (c : Cursor) : Abort → Prop
  | unknownFunction {d : Cursor} {before name behind : Text} : c.Reads before d → d.rest = name ++ '(' :: behind →
      2 ≤ name.length → (∀ x ∈ name, x.isUpper = true) → builtIn? name = none →
      Cause c (.unknownFunction d.offset name)
  | tooManyDigits {d : Cursor} {before run behind : Text} : c.Reads before d → d.rest = run ++ behind →
      (∀ x ∈ run, x.isDigit = true) → Stops Char.isDigit behind → digitLimit < run.length →
      Cause c (.tooManyDigits run.length)

theorem Cause.behind {s : Text} (hs : c.Reads s d) (h : Cause d cause) : Cause c cause := by
  cases h with
  | unknownFunction hr hname hlen hupper hnone => exact .unknownFunction (hs.trans hr) hname hlen hupper hnone
  | tooManyDigits hr hrun hdigit hstop hlong => exact .tooManyDigits (hs.trans hr) hrun hdigit hstop hlong

namespace Rule

theorem lexeme_not_aborted {wanted : Wanted} {scan : Text → Option (α × Nat)} :
    ((lexeme wanted scan).run c).outcome ≠ .aborted cause := by
  unfold lexeme
  cases h : scan c.rest <;> simp [h]

/-- A run of digits that is too long is counted to its end. -/
theorem cause_integer (h : (integer.run c).outcome = .aborted cause) : Cause c cause := by
  obtain ⟨run, behind, hc, hrun, hstop⟩ := exists_run Char.isDigit c.rest
  have scan : Lexeme.digits c.rest = if run = [] then none else some (run, run.length) := by
    rw [hc, Lexeme.digits, takeWhile_run hrun hstop]
  rcases aborted_bind.mp h with h | ⟨v, d, hd, h⟩
  · exact absurd h lexeme_not_aborted
  · by_cases hne : run = []
    · simp [lexeme, scan, hne] at hd
    · simp only [lexeme, scan, if_neg hne, Outcome.found.injEq] at hd
      obtain ⟨rfl, -⟩ := hd
      by_cases hlong : digitLimit < run.length
      · rw [if_pos hlong] at h
        cases h
        exact .tooManyDigits c.reads_nil hc hrun hstop hlong
      · rw [if_neg hlong] at h
        cases h

/-- The name of a function is two or more capitals, and its parenthesis is right behind it. -/
theorem functionName_found {name : Text} (h : (functionName.run c).outcome = .found name d) :
    c.Reads name d ∧ 2 ≤ name.length ∧ (∀ x ∈ name, x.isUpper = true) ∧ ∃ behind, d.rest = '(' :: behind := by
  obtain ⟨s, hs, rfl, hupper⟩ := sound_functionName c name d h
  cases hscan : Lexeme.functionName c.rest with
  | none => simp [functionName, lexeme, hscan] at h
  | some r =>
    obtain ⟨behind, hbehind⟩ := functionName_paren hscan
    simp only [functionName, lexeme, hscan, Outcome.found.injEq] at h
    obtain ⟨rfl, rfl⟩ := h
    refine ⟨hs, ?_, hupper, behind, hbehind⟩
    unfold Lexeme.functionName at hscan
    dsimp only at hscan
    split at hscan
    · rename_i hname
      cases hscan
      exact hname.1
    · cases hscan

theorem Composed.has_cause {words : List String} {toEnd : Prop} (h : Composed words toEnd p c) :
    ∀ cause, (p.run c).outcome = .aborted cause → Cause c cause := by
  induction h with
  | pure v c =>
    intro cause h
    cases h
  | bind hp _ ih ihf =>
    intro cause h
    rcases aborted_bind.mp h with h | ⟨v, d, hd, h⟩
    · exact ih cause h
    · obtain ⟨s, hs⟩ := hp.attentive.reads v d hd
      exact (ihf v d hd cause h).behind hs
  | orElse _ _ ih ih' =>
    intro cause h
    rcases aborted_orElse.mp h with h | ⟨-, h⟩
    · exact ih cause h
    · exact ih' cause h
  | spaces c =>
    intro cause h
    cases h
  | literal c _ => exact fun cause h => absurd h lexeme_not_aborted
  | letter c => exact fun cause h => absurd h lexeme_not_aborted
  | quoted c => exact fun cause h => absurd h lexeme_not_aborted
  | real c => exact fun cause h => absurd h lexeme_not_aborted
  | integer c => exact fun cause h => cause_integer h
  | @call β g c _ _ ih =>
    intro cause h
    rw [run_here] at h
    rcases aborted_bind.mp h with h | ⟨name, d, hd, h⟩
    · exact absurd h lexeme_not_aborted
    · obtain ⟨hs, hlen, hupper, behind, hbehind⟩ := functionName_found hd
      cases hb : builtIn? name with
      | some function =>
        rw [hb] at h
        exact (ih name d function hd hb cause h).behind hs
      | none =>
        rw [hb] at h
        cases h
        exact .unknownFunction c.reads_nil (hs.1.trans (by rw [hbehind])) hlen hupper hb
  | @checked α β p f c _ _ hf ih =>
    intro cause h
    rw [run_here] at h
    rcases aborted_bind.mp h with h | ⟨v, d, -, h⟩
    · exact ih cause h
    · rcases hf v with ⟨w, hw⟩ | hw
      · rw [hw] at h
        cases h
      · rw [hw] at h
        cases h
  | restOfLine c _ =>
    intro cause h
    cases h

/-! ## (2) What a span is rejected for -/

/-- Whatever is missed while a whole span is read is missed in it. -/
theorem whole_between {words : List String} (h : Attentive words c (p.run c)) {m : Miss}
    (hm : m ∈ (p.whole.run c).misses) : c.offset ≤ m.offset ∧ m.offset ≤ c.offset + c.rest.length := by
  rcases mem_misses_whole hm with hm | ⟨v, d, hd, rfl⟩
  · exact h.between hm
  · obtain ⟨s, hs⟩ := h.reads v d hd
    have inside : (d.rest.takeWhile isSpace).length ≤ d.rest.length := (List.takeWhile_prefix _).length_le
    have finish := congrArg List.length hs.1
    have place := hs.2
    rw [List.length_append] at finish
    show c.offset ≤ d.offset + _ ∧ d.offset + _ ≤ _
    omega

/-- A span is not rejected without a miss. -/
theorem whole_missed {words : List String} (h : Attentive words c (p.run c))
    (hw : (p.whole.run c).outcome = .missing) : (p.whole.run c).misses ≠ [] := by
  cases hp : (p.run c).outcome with
  | found v d =>
    rw [run_whole hp] at hw ⊢
    by_cases hend : d.skip.rest = []
    · rw [if_pos hend] at hw
      cases hw
    · rw [if_neg hend]
      simp
  | missing =>
    rw [whole, run_bind_missing hp]
    exact h.missing hp
  | aborted cause =>
    rw [whole, run_bind_aborted hp] at hw
    cases hw

end Rule

/-- The error of some misses is at one of them, and something is expected there. -/
theorem Frontier.error_within {start stop : Nat} {misses : List Miss} (hne : misses ≠ [])
    (hm : ∀ m ∈ misses, start ≤ m.offset ∧ m.offset ≤ stop) :
    let e := ((Frontier.start start).recordAll misses).error
    start ≤ e.offset ∧ e.offset ≤ stop ∧ e.expected ≠ [] := by
  intro e
  obtain ⟨hle, hall, hone⟩ := (Frontier.start start).farthest_recordAll misses
  -- A frontier that has not moved is at the first of the misses.
  obtain ⟨m, hmem, hfar⟩ : ∃ m ∈ misses, m.offset = e.offset := by
    rcases hone with hone | hone
    · obtain ⟨m, rest, rfl⟩ := List.exists_cons_of_ne_nil hne
      have here := hall m List.mem_cons_self
      have near := (hm m List.mem_cons_self).1
      refine ⟨m, List.mem_cons_self, Nat.le_antisymm here ?_⟩
      show ((Frontier.start start).recordAll _).farthest ≤ _
      rw [hone]
      exact near
    · exact hone
  have wanted : m.wanted ∈ ((Frontier.start start).recordAll misses).wanted := by
    rw [Frontier.mem_wanted_recordAll]
    right
    show (⟨e.offset, m.wanted⟩ : Miss) ∈ misses
    rw [← hfar]
    exact hmem
  have described : m.wanted.describe ∈ e.expected := mem_ascending.mpr (List.mem_map.mpr ⟨_, wanted, rfl⟩)
  exact ⟨hfar ▸ (hm m hmem).1, hfar ▸ (hm m hmem).2, List.ne_nil_of_mem described⟩

/-! ## (3) Spans -/

/-- What a failure says of the part of a text from `start` to `stop`. -/
inductive FailsIn (text : Text) (start stop : Nat) : Failure → Prop
  /-- Something is expected at a place of the span. -/
  | rejected {e : ParseError} : e.fatal = false → start ≤ e.offset → e.offset ≤ stop → e.expected ≠ [] →
      e.expected.Pairwise (· < ·) → FailsIn text start stop (.badText e)
  /-- Two or more capitals with a parenthesis right behind them are not the name of a function. -/
  | stopped {e : ParseError} {name behind : Text} : e.fatal = true → e.expected = [] →
      e.description = "unknown function " ++ String.ofList name → start ≤ e.offset →
      text.slice e.offset stop = name ++ '(' :: behind → 2 ≤ name.length → (∀ x ∈ name, x.isUpper = true) →
      name ≠ "INT".toList → name ≠ "RND".toList → FailsIn text start stop (.badText e)
  /-- A run of digits is too long, up to its end. -/
  | overflowed {offset : Nat} {run behind : Text} : start ≤ offset → text.slice offset stop = run ++ behind →
      (∀ x ∈ run, x.isDigit = true) → Stops Char.isDigit behind → 4300 < run.length →
      FailsIn text start stop (.tooManyDigits (some run.length))

theorem Text.slice_behind {text s : Text} {start stop : Nat}
    (h : (⟨start, text.slice start stop⟩ : Cursor).Reads s d) : text.slice d.offset stop = d.rest := by
  have rest : (text.slice start stop).drop s.length = d.rest := by
    rw [show text.slice start stop = s ++ d.rest from h.1, List.drop_left]
  rw [← rest, h.2, Text.slice, Text.slice, List.drop_drop]

/-- The rules that have a name read in steps, and only a statement may read up to the end at once. -/
theorem RuleName.composed (name : RuleName) (c : Cursor) : Composed lineWords True name.rule c := by
  have words : statementWords ⊆ lineWords := List.subset_cons_self _ _
  have named {α : Type} {p : Rule α} {g : α → Value} (h : Composed lineWords True p c) :
      Composed lineWords True (do let v ← p; pure (g v)) c := .bind h fun v d _ => .pure (g v) d
  have short : c.rest.length < c.rest.length + 1 := Nat.lt_succ_self _
  cases name with
  | integer => exact named (.integer c)
  | real => exact named (.real c)
  | letter => exact named (.letter c)
  | quoted => exact named (.quoted c)
  | expression => exact named (composed_expression (arithmetic_subset words) _ c short)
  | arrayReference => exact named (composed_arrayReference (arithmetic_subset words) c short)
  | variableReference => exact named (.letter c)
  | stringExpression => exact named (composed_stringExpression words c short)
  | stringBody => exact named (composed_stringBody words c short)
  | condition => exact named (composed_condition words c short)
  | statement => exact named (composed_statement _ c short)

/-- No rule that has a name finds anything where nothing is ahead. -/
theorem RuleName.missing_at_end (name : RuleName) (o : Nat) : (name.rule.run ⟨o, []⟩).outcome = .missing := by
  cases name <;> rfl

theorem builtIn?_none {name : Text} (h : builtIn? name = none) : name ≠ "INT".toList ∧ name ≠ "RND".toList := by
  constructor
  · intro hname
    subst hname
    cases h
  · intro hname
    subst hname
    cases h

/-- A failure to read a span has its cause there: something expected at a place of it, a function that does not exist,
    or too many digits. A span that ends before it begins is always rejected, and that where it begins. -/
theorem RuleName.failure_in_span (name : RuleName) (text : Text) (start stop : Nat) :
    (start ≤ stop → ∀ failure, name.parse text start stop = .error failure → FailsIn text start stop failure) ∧
    (stop < start → ∃ e, name.parse text start stop = .error (.badText e) ∧ e.fatal = false ∧ e.offset = start) := by
  have composed := name.composed ⟨start, text.slice start stop⟩
  have missed := fun m => whole_between (m := m) composed.attentive
  constructor
  · intro hle failure hfail
    have inside : start + (text.slice start stop).length ≤ stop := by
      simp only [Text.slice, List.length_drop, List.length_take]
      omega
    unfold RuleName.parse parseSpan at hfail
    cases ho : (name.rule.whole.run ⟨start, text.slice start stop⟩).outcome with
    | found v d =>
      simp only [ho] at hfail
      cases hfail
    | missing =>
      simp only [ho] at hfail
      cases hfail
      obtain ⟨hstart, hstop, hne⟩ := Frontier.error_within (whole_missed composed.attentive ho) missed
      exact .rejected rfl hstart (Nat.le_trans hstop inside) hne (pairwise_ascending _)
    | aborted cause =>
      simp only [ho] at hfail
      cases hfail
      cases composed.has_cause cause (aborted_of_whole ho) with
      | unknownFunction hr hname hlen hupper hnone =>
        have later : start ≤ _ := hr.offset_le
        exact .stopped rfl rfl rfl later ((Text.slice_behind hr).trans hname) hlen hupper
          (builtIn?_none hnone).1 (builtIn?_none hnone).2
      | tooManyDigits hr hrun hdigit hstop hlong =>
        have later : start ≤ _ := hr.offset_le
        exact .overflowed later ((Text.slice_behind hr).trans hrun) hdigit hstop hlong
  · intro hlt
    have nothing : text.slice start stop = [] := by
      apply List.eq_nil_of_length_eq_zero
      simp only [Text.slice, List.length_drop, List.length_take]
      omega
    rw [nothing] at composed missed
    have none := name.missing_at_end start
    have rejected : (name.rule.whole.run ⟨start, []⟩).outcome = .missing := by
      rw [whole, run_bind_missing none]
    obtain ⟨hstart, hstop, -⟩ := Frontier.error_within (whole_missed composed.attentive rejected) missed
    refine ⟨_, ?_, rfl, Nat.le_antisymm hstop hstart⟩
    simp only [RuleName.parse, parseSpan, nothing, rejected]

/-- A function that does not exist, called in the middle of a text, and a span that ends before it begins. -/
theorem RuleName.failure_in_span_called :
    RuleName.parse .expression "10 PRINT 2*ABS(X)".toList 9 17 =
      .error (.badText (.stop 11 "unknown function ABS")) ∧
    FailsIn "10 PRINT 2*ABS(X)".toList 9 17 (.badText (.stop 11 "unknown function ABS")) ∧
    ∃ e, RuleName.parse .letter "10 PRINT X".toList 9 3 = .error (.badText e) ∧ e.fatal = false ∧ e.offset = 9 := by
  have called : RuleName.parse .expression "10 PRINT 2*ABS(X)".toList 9 17 =
      .error (.badText (.stop 11 "unknown function ABS")) := by rfl
  have stopped := (RuleName.failure_in_span .expression "10 PRINT 2*ABS(X)".toList 9 17).1 (by decide) _ called
  have reversed := (RuleName.failure_in_span .letter "10 PRINT X".toList 9 3).2 (by decide)
  exact ⟨called, stopped, reversed⟩

end LineBasic
