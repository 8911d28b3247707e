import LineBasic.Proofs.Ascending
import LineBasic.Proofs.Lookahead

/-
  LineBasic.Proofs.Whole — what a whole text is read as, by what its rule replies.

  Behind what the rule finds there may be spaces, and then the text has to end (`run_whole`). A text that is rejected and
  not aborted is rejected at the farthest of all misses, and the error expects what was missed there (`parse_rejected`).
-/

namespace LineBasic.Rule

variable {α : Type} {p : Rule α} {c d : Cursor} {v : α} {t : Text}

/-- Spaces and the end of the span behind what was found. -/
theorem run_whole (h : (p.run c).outcome = .found v d) : p.whole.run c = if d.skip.rest = []
    then ⟨.found v d.skip, (p.run c).misses⟩ else ⟨.missing, (p.run c).misses ++ [⟨d.ahead, .endOfLine⟩]⟩ := by
  unfold whole
  rw [run_bind_found h, run_skip]
  have last : endOfLine.run d.skip = if d.skip.rest = [] then ⟨.found () d.skip, []⟩
      else ⟨.missing, [⟨d.ahead, .endOfLine⟩]⟩ := rfl
  rw [run_bind, last]
  by_cases hend : d.skip.rest = []
  · simp only [if_pos hend, Reply.andThen, Reply.after, run_pure, List.append_nil]
  · simp only [if_neg hend, Reply.andThen, Reply.after]

/-- What is missed in a whole text is missed by its rule, or it is the end that is not there. -/
theorem mem_misses_whole {m : Miss} (hm : m ∈ (p.whole.run c).misses) : m ∈ (p.run c).misses ∨
    ∃ v d, (p.run c).outcome = .found v d ∧ m = ⟨d.ahead, .endOfLine⟩ := by
  cases h : (p.run c).outcome with
  | found v d =>
    rw [run_whole h] at hm
    by_cases hend : d.skip.rest = []
    · rw [if_pos hend] at hm
      exact .inl hm
    · rw [if_neg hend] at hm
      rcases List.mem_append.mp hm with hm | hm
      · exact .inl hm
      · exact .inr ⟨v, d, rfl, List.mem_singleton.mp hm⟩
  | missing =>
    rw [whole, run_bind_missing h] at hm
    exact .inl hm
  | aborted cause =>
    rw [whole, run_bind_aborted h] at hm
    exact .inl hm

/-- Only the rule itself can stop the reading of a whole text. -/
theorem aborted_of_whole {cause : Abort} (hc : (p.whole.run c).outcome = .aborted cause) :
    (p.run c).outcome = .aborted cause := by
  cases h : (p.run c).outcome with
  | found v d =>
    rw [run_whole h] at hc
    by_cases hend : d.skip.rest = []
    · rw [if_pos hend] at hc
      cases hc
    · rw [if_neg hend] at hc
      cases hc
  | missing =>
    rw [whole, run_bind_missing h] at hc
    cases hc
  | aborted cause =>
    rw [whole, run_bind_aborted h] at hc
    exact hc

theorem parse_missing (h : (p.whole.run ⟨0, t⟩).outcome = .missing) :
    p.parse t = .error (.badText ((Frontier.start 0).recordAll (p.whole.run ⟨0, t⟩).misses).error) := by
  simp only [parse, parseSpan, h]

/-- A text is rejected at its farthest miss, and what is expected is what was missed there. -/
theorem parse_rejected {e : ParseError} (h : p.parse t = .error (.badText e)) (hf : e.fatal = false) :
    (p.whole.run ⟨0, t⟩).outcome = .missing ∧ (p.whole.run ⟨0, t⟩).Within e.offset ∧
      ∀ s ∈ e.expected, ∃ w, ⟨e.offset, w⟩ ∈ (p.whole.run ⟨0, t⟩).misses ∧ w.describe = s := by
  cases ho : (p.whole.run ⟨0, t⟩).outcome with
  | found v d =>
    simp only [parse, parseSpan, ho] at h
    cases h
  | missing =>
    rw [parse_missing ho] at h
    cases h
    have farthest := (Frontier.start 0).farthest_recordAll (p.whole.run ⟨0, t⟩).misses
    refine ⟨rfl, farthest.2.1, fun s hs => ?_⟩
    obtain ⟨w, hw, rfl⟩ := List.mem_map.mp (mem_ascending.mp hs)
    rw [Frontier.mem_wanted_recordAll] at hw
    exact ⟨w, hw.resolve_left (by simp [Frontier.start]), rfl⟩
  | aborted cause =>
    simp only [parse, parseSpan, ho] at h
    cases cause with
    | unknownFunction offset name =>
      cases h
      cases hf
    | tooManyDigits count => cases h

end LineBasic.Rule
