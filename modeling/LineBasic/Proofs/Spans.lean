import LineBasic.Session
import LineBasic.Proofs.Shift

/-
  LineBasic.Proofs.Spans — a rule reads a span of a text as it reads the characters of the span alone.

  Every rule that has a name shifts, so the span it is asked to read is all it sees: neither what is before the span
  nor what is behind it has a part in the result. Only the offset of an error counts from the start of the whole text.
-/

namespace LineBasic

open Rule Grammar

variable {k : Nat}

theorem RuleName.shifts (name : RuleName) : Shifts k name.rule name.rule := by
  have named {α : Type} {p : Rule α} {f : α → Value} (h : Shifts k p p) :
      Shifts k (do let v ← p; pure (f v)) (do let v ← p; pure (f v)) := h.bind fun _ => shifts_pure _
  cases name with
  | integer => exact named shifts_integer
  | real => exact named (shifts_lexeme _ _)
  | letter => exact named (shifts_lexeme _ _)
  | quoted => exact named (shifts_lexeme _ _)
  | expression => exact named shifts_expression
  | arrayReference => exact named shifts_arrayReference
  | variableReference => exact named (shifts_lexeme _ _)
  | stringExpression => exact named shifts_stringExpression
  | stringBody => exact named shifts_stringBody
  | condition => exact named shifts_condition
  | statement => exact named shifts_statement

theorem Text.slice_all (t : Text) : t.slice 0 t.length = t := by simp [Text.slice]

/-- The failure of the characters of the span, moved to where the span begins, is the failure of the span. -/
theorem RuleName.parse_eq_shift (name : RuleName) (text : Text) (start stop : Nat) :
    name.parse text start stop =
      (name.parse (text.slice start stop) 0 (text.slice start stop).length).mapError (Failure.shift start) := by
  unfold RuleName.parse
  rw [Text.slice_all]
  exact parseSpan_eq_parse (fun _ => name.shifts) start (text.slice start stop)

/-- A rule that fails has a place, or has met a number with too many digits. -/
theorem Rule.parseSpan_failure {α : Type} {p : Rule α} {o : Nat} {t : Text} {failure : Failure}
    (h : p.parseSpan o t = .error failure) :
    (∃ e, failure = .badText e) ∨ ∃ count, failure = .tooManyDigits (some count) := by
  simp only [parseSpan] at h
  split at h
  · cases h
  · cases h
    exact .inl ⟨_, rfl⟩
  · rename_i cause _
    cases h
    cases cause with
    | unknownFunction => exact .inl ⟨_, rfl⟩
    | tooManyDigits count => exact .inr ⟨count, rfl⟩

section Moved

variable {α : Type} {r : Except Failure α}

theorem moved_ok {v : α} : r.mapError (Failure.shift k) = .ok v ↔ r = .ok v := by
  cases r with
  | ok w => exact Iff.rfl
  | error f => constructor <;> (intro h; cases h)

theorem moved_badText {e : ParseError} :
    r.mapError (Failure.shift k) = .error (.badText e) ↔ ∃ e', r = .error (.badText e') ∧
      e.fatal = e'.fatal ∧ e.offset = e'.offset + k ∧ e.expected = e'.expected ∧ e.description = e'.description := by
  constructor
  · intro h
    match r, h with
    | .error (.badText e'), h =>
      cases h
      exact ⟨e', rfl, rfl, rfl, rfl, rfl⟩
  · rintro ⟨e', rfl, hf, ho, he, hd⟩
    obtain ⟨fatal, offset, expected, description⟩ := e
    cases hf
    cases ho
    cases he
    cases hd
    rfl

theorem moved_tooManyDigits {count : Option Nat} :
    r.mapError (Failure.shift k) = .error (.tooManyDigits count) ↔ r = .error (.tooManyDigits count) := by
  constructor
  · intro h
    match r, h with
    | .error (.tooManyDigits _), h =>
      cases h
      rfl
  · rintro rfl
    rfl

end Moved

/-- Reading a span of a text and reading its characters as a text of their own have the same outcome: the same value,
    or an error that differs in the offset only, by the start of the span, or the same number of digits. So spans of
    the same characters are read alike, whatever surrounds them. -/
theorem RuleName.span_alone (name : RuleName) (text : Text) (start stop : Nat) :
    let span := text.slice start stop
    let alone := name.parse span 0 span.length
    (∀ v, name.parse text start stop = .ok v ↔ alone = .ok v) ∧
    (∀ e, name.parse text start stop = .error (.badText e) ↔ ∃ e', alone = .error (.badText e') ∧
      e.fatal = e'.fatal ∧ e.offset = e'.offset + start ∧ e.expected = e'.expected ∧ e.description = e'.description) ∧
    (∀ count, name.parse text start stop = .error (.tooManyDigits count) ↔ alone = .error (.tooManyDigits count)) ∧
    (∀ failure, name.parse text start stop = .error failure →
      (∃ e, failure = .badText e) ∨ ∃ count, failure = .tooManyDigits (some count)) ∧
    ∀ (text' : Text) (start' stop' : Nat), text'.slice start' stop' = span →
      name.parse text' start' stop' = alone.mapError (Failure.shift start') := by
  intro span alone
  rw [show name.parse text start stop = alone.mapError (Failure.shift start) from name.parse_eq_shift text start stop]
  refine ⟨fun v => moved_ok, fun e => moved_badText, fun count => moved_tooManyDigits, fun failure h => ?_, ?_⟩
  · rw [← name.parse_eq_shift] at h
    exact parseSpan_failure h
  · intro text' start' stop' h
    rw [name.parse_eq_shift text' start' stop', h]

end LineBasic
