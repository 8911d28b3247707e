import LineBasic.Proofs.Chaining
import LineBasic.Proofs.Expected

/-
  LineBasic.Proofs.Respacing — how many spaces stand in a gap between two lexemes does not matter.

  A gap is a run of spaces before which every quote is closed. Outside quoted text no lexeme reads into a gap, and
  whoever skips a gap skips all of it, so no rule can tell one width from another.

  (1) Two texts are respaced if they are the same, or differ in the width of one gap (`Respaced`). A gap is not empty,
      unless it is at the end of the text. Behind their spaces such texts are respaced again, or the gap is passed and
      they are the same (`Respaced.skip`).
  (2) Where respaced texts are ahead, a rule finds the same thing in both and leaves respaced texts, or finds nothing in
      either, or is stopped in both (`Composed.respaced`).
  (3) So a line has the same tree, or none, whatever the width of its gaps.
-/

namespace LineBasic

variable {α β : Type}

open Grammar Rule

/-! ## (1) Respaced texts -/

/-- Two texts that begin with a space or are empty, and are the same behind their spaces. -/
structure Gap (k k' : Text) : Prop where
  left : ∀ c ∈ k.head?, c = ' '
  right : ∀ c ∈ k'.head?, c = ' '
  behind : k.dropWhile isSpace = k'.dropWhile isSpace

theorem Gap.symm {k k' : Text} (h : Gap k k') : Gap k' k := ⟨h.right, h.left, h.behind.symm⟩

/-- Spaces and other spaces before the same text. At the end of a text there need not be any. -/
theorem gap_spaces {s s' b : Text} (hs : Spaces s) (hs' : Spaces s') (hb : b = [] ∨ s ≠ [] ∧ s' ≠ []) :
    Gap (s ++ b) (s' ++ b) := by
  have begins {s : Text} (hs : Spaces s) (hb : b = [] ∨ s ≠ []) : ∀ c ∈ (s ++ b).head?, c = ' ' := by
    intro c hc
    cases s with
    | nil =>
      rw [hb.resolve_right (absurd rfl)] at hc
      cases hc
    | cons x s =>
      cases hc
      exact hs c List.mem_cons_self
  refine ⟨begins hs (hb.imp_right And.left), begins hs' (hb.imp_right And.right), ?_⟩
  rw [List.dropWhile_append_of_pos hs.isSpace, List.dropWhile_append_of_pos hs'.isSpace]

/-- The same text, or two texts that differ in a gap before which every quote is closed. -/
inductive Respaced : Text → Text → Prop
  | same (t : Text) : Respaced t t
  | apart {a k k' : Text} : Balanced a → Gap k k' → Respaced (a ++ k) (a ++ k')

namespace Respaced

variable {t t' : Text}

theorem symm (h : Respaced t t') : Respaced t' t := by
  cases h with
  | same => exact .same t
  | apart hb hg => exact .apart hb hg.symm

/-- Respaced texts stay respaced behind their spaces, and if one of them is at its end there, the other is. -/
theorem skip (h : Respaced t t') : Respaced (t.dropWhile isSpace) (t'.dropWhile isSpace) ∧
    (t.dropWhile isSpace = [] → t'.dropWhile isSpace = []) := by
  cases h with
  | same => exact ⟨.same _, id⟩
  | @apart a k k' hb hg =>
    obtain ⟨s, r, rfl, hs, hr⟩ := exists_spaces a
    cases r with
    | nil =>
      -- Nothing but spaces is before the gap, so it is skipped as well.
      rw [List.append_nil, List.dropWhile_append_of_pos hs.isSpace, List.dropWhile_append_of_pos hs.isSpace, hg.behind]
      exact ⟨.same _, id⟩
    | cons c r =>
      have stops (k : Text) : Stops isSpace (c :: r ++ k) := by simpa using hr
      rw [List.append_assoc, List.append_assoc, dropWhile_run hs.isSpace (stops k), dropWhile_run hs.isSpace (stops k')]
      exact ⟨.apart ((balanced_append (spaces_balanced hs)).mp hb) hg, by simp⟩

end Respaced

/-! ## (2) Replies at respaced texts -/

/-- The same thing is found and respaced texts are left, or nothing is found, or the reading is stopped. -/
inductive Outcome.Agree : Outcome α → Outcome α → Prop
  | found (v : α) {d d' : Cursor} : Respaced d.rest d'.rest → Agree (.found v d) (.found v d')
  | missing : Agree .missing .missing
  | aborted (cause cause' : Abort) : Agree (.aborted cause) (.aborted cause')

theorem Reply.agree_andThen {r r' : Reply α} {f f' : α → Cursor → Reply β} (h : r.outcome.Agree r'.outcome)
    (hf : ∀ v d d', r.outcome = .found v d → Respaced d.rest d'.rest → (f v d).outcome.Agree (f' v d').outcome) :
    (r.andThen f).outcome.Agree (r'.andThen f').outcome := by
  rw [outcome_andThen, outcome_andThen]
  generalize ho : r.outcome = o, r'.outcome = o' at h
  cases h with
  | found v hd => exact hf v _ _ ho hd
  | missing => exact .missing
  | aborted cause cause' => exact .aborted cause cause'

theorem Reply.agree_orTry {r r' : Reply α} {f f' : Unit → Reply α} (h : r.outcome.Agree r'.outcome)
    (hf : (f ()).outcome.Agree (f' ()).outcome) : (r.orTry f).outcome.Agree (r'.orTry f').outcome := by
  rw [outcome_orTry, outcome_orTry]
  generalize r.outcome = o, r'.outcome = o' at h
  cases h with
  | found v hd => exact .found v hd
  | missing => exact hf
  | aborted cause cause' => exact .aborted cause cause'

namespace Rule

variable {words : List String} {toEnd : Prop} {p : Rule α} {c c' : Cursor} {v : α}

/-- A lexeme that keeps its quotes closed and does not read into a gap. -/
theorem agree_lexeme {wanted : Wanted} {scan : Text → Option (α × Nat)}
    (balanced : Sound (lexeme wanted scan) fun s _ => Balanced s)
    (alike : ∀ k, (∀ c ∈ k.head?, c = ' ') → ∀ a, Balanced a → scan (a ++ k) = scan a) (h : Respaced c.rest c'.rest) :
    ((lexeme wanted scan).run c).outcome.Agree ((lexeme wanted scan).run c').outcome := by
  obtain ⟨o, t⟩ := c
  obtain ⟨o', t'⟩ := c'
  cases h with
  | same =>
    unfold lexeme
    dsimp only
    cases scan t with
    | none => exact .missing
    | some r => exact .found r.1 (.same _)
  | @apart a k k' hb hg =>
    have left : (lexeme wanted scan).run ⟨o, a ++ k⟩ = ((lexeme wanted scan).run ⟨o, a⟩).extend k :=
      extend_lexeme (c := ⟨o, a⟩) balanced.advances (alike k hg.left a hb)
    have right : (lexeme wanted scan).run ⟨o', a ++ k'⟩ = ((lexeme wanted scan).run ⟨o', a⟩).extend k' :=
      extend_lexeme (c := ⟨o', a⟩) balanced.advances (alike k' hg.right a hb)
    show ((lexeme wanted scan).run ⟨o, a ++ k⟩).outcome.Agree ((lexeme wanted scan).run ⟨o', a ++ k'⟩).outcome
    rw [left, right]
    cases hs : scan a with
    | none =>
      simp only [lexeme, hs, Reply.extend]
      exact .missing
    | some r =>
      obtain ⟨s, hr, bs⟩ := balanced ⟨o, a⟩ r.1 (Cursor.advance ⟨o, a⟩ r.2) (by simp only [lexeme, hs])
      have rest : Balanced (a.drop r.2) := (balanced_append bs).mp (hr.1 ▸ hb)
      simp only [lexeme, hs, Reply.extend, Cursor.advance]
      exact .found r.1 (.apart rest hg)

theorem agree_spaces (h : Respaced c.rest c'.rest) : (spaces.run c).outcome.Agree (spaces.run c').outcome := by
  rw [run_to_skip, run_to_skip]
  exact .found () h.skip.1

/-- Neither a quote nor a space is in a literal text. -/
def Unspaced (words : List String) : Prop := ∀ word ∈ words, '"' ∉ word.toList ∧ ' ' ∉ word.toList

theorem unspaced_lineWords : Unspaced lineWords := by
  unfold Unspaced
  decide

/-- A rule cannot tell respaced texts from each other. -/
theorem Composed.respaced (h : Composed words toEnd p c) (hw : Unspaced words) :
    ∀ c', Respaced c.rest c'.rest → (p.run c).outcome.Agree (p.run c').outcome := by
  have breaks {k : Text} (hk : ∀ c ∈ k.head?, c = ' ') : Breaks k := fun c hc => .inr (hk c hc)
  induction h with
  | pure v c => exact fun c' hc => .found v hc
  | bind _ _ ih ihf => exact fun c' hc => Reply.agree_andThen (ih c' hc) fun v d d' hd hr => ihf v d hd d' hr
  | orElse _ _ ih ih' => exact fun c' hc => Reply.agree_orTry (ih c' hc) (ih' c' hc)
  | spaces c => exact fun c' hc => agree_spaces hc
  | @literal word c hm =>
    intro c' hc
    refine agree_lexeme (balanced_literal (hw word hm).1) (fun k hk a _ => ?_) hc
    have absent : ∀ x ∈ k.head?, x ∉ word.toList := fun x hx => hk x hx ▸ (hw word hm).2
    simp only [List.isPrefixOf_iff_prefix, prefix_stops absent]
  | letter c =>
    exact fun c' hc => agree_lexeme balanced_letter (fun k hk a _ => scan_letter_break (breaks hk) a) hc
  | quoted c =>
    exact fun c' hc => agree_lexeme balanced_quoted (fun k hk a hb => scan_quoted_break (breaks hk) hb) hc
  | real c => exact fun c' hc => agree_lexeme balanced_real (fun k hk a _ => scan_real_break (breaks hk) a) hc
  | integer c =>
    intro c' hc
    have digits := agree_lexeme balanced_digits (fun k hk a _ => scan_digits_break (breaks hk) a) hc
    refine Reply.agree_andThen digits fun v d d' _ hr => ?_
    dsimp only
    split
    · exact .aborted _ _
    · exact .found _ hr
  | @call β g c _ _ ih =>
    intro c' hc
    rw [run_here, run_here]
    have name := agree_lexeme balanced_functionName (fun k hk a _ => scan_functionName_break (breaks hk) a) hc
    refine Reply.agree_andThen name fun name d d' hd hr => ?_
    dsimp only
    cases hf : builtIn? name with
    | some function => exact ih name d function hd hf d' hr
    | none => exact .aborted _ _
  | @checked α β p f c _ _ hf ih =>
    intro c' hc
    rw [run_here, run_here]
    refine Reply.agree_andThen (ih c' hc) fun v d d' _ hr => ?_
    dsimp only
    rcases hf v with ⟨w, hv⟩ | hv
    · rw [hv, hv]
      exact .found w hr
    · rw [hv, hv]
      exact .missing
  | restOfLine c _ =>
    intro c' _
    refine .found () ?_
    simp only [Cursor.finish, Cursor.advance, List.drop_length]
    exact .same []

/-! ## (3) Whole texts -/

/-- A rule reads respaced texts as the same. -/
theorem parse_respaced (composed : ∀ c, Composed words toEnd p c) (hw : Unspaced words) {t t' : Text}
    (h : Respaced t t') (hp : p.parse t = .ok v) : p.parse t' = .ok v := by
  obtain ⟨e, he⟩ := parse_eq_ok.mp hp
  obtain ⟨w, d, hd, hlast⟩ := found_bind.mp he
  have agree := (composed ⟨0, t⟩).respaced hw ⟨0, t'⟩ h
  generalize ho : (p.run ⟨0, t'⟩).outcome = outcome at agree
  rw [hd] at agree
  cases agree with
  | @found _ _ d' hr =>
    rw [run_whole hd] at he
    by_cases hend : d.skip.rest = []
    · rw [if_pos hend] at he
      cases he
      have hend' : d'.skip.rest = [] := hr.skip.2 hend
      refine parse_eq_ok.mpr ⟨d'.skip, ?_⟩
      rw [run_whole ho, if_pos hend']
    · rw [if_neg hend] at he
      cases he

end Rule

/-- A line has the same tree whatever the width of a gap in it: a run of spaces with every quote before it closed, which
    may be empty only at the end of the line. -/
theorem ofText_respaced {before s s' behind : Text} (hq : Balanced before) (hs : Spaces s) (hs' : Spaces s')
    (hb : behind = [] ∨ s ≠ [] ∧ s' ≠ []) (t : Statement) :
    Statement.ofText (before ++ s ++ behind) = .ok t ↔ Statement.ofText (before ++ s' ++ behind) = .ok t := by
  have respaced : Respaced (before ++ s ++ behind) (before ++ s' ++ behind) := by
    rw [List.append_assoc, List.append_assoc]
    exact .apart hq (gap_spaces hs hs' hb)
  constructor
  · exact parse_respaced composed_line unspaced_lineWords respaced
  · exact parse_respaced composed_line unspaced_lineWords respaced.symm

/-- A wider gap before a colon with a remark behind it that opens a quote, and spaces behind a whole line. -/
theorem ofText_respaced_gaps :
    (Statement.ofText ("PRINT \"A  B\"".toList ++ "   ".toList ++ ":REM \"".toList) =
        .ok (.sequence (.print (.literal "A  B".toList)) .remark) ∧
      Statement.ofText ("PRINT \"A  B\"".toList ++ " ".toList ++ ":REM \"".toList) =
        .ok (.sequence (.print (.literal "A  B".toList)) .remark)) ∧
    Statement.ofText ("END".toList ++ "  ".toList ++ []) = .ok .finish ∧
      Statement.ofText ("END".toList ++ [] ++ []) = .ok .finish := by
  have gap : Statement.ofText ("PRINT \"A  B\"".toList ++ " ".toList ++ ":REM \"".toList) =
      .ok (.sequence (.print (.literal "A  B".toList)) .remark) := by rfl
  have line : Statement.ofText ("END".toList ++ [] ++ []) = .ok .finish := by rfl
  have closed : Balanced "PRINT \"A  B\"".toList := by rfl
  have three : Spaces "   ".toList := by simp [Spaces]
  have wider := (ofText_respaced closed three spaces_one (.inr (by simp)) _).mpr gap
  have none : Balanced "END".toList := by rfl
  have two : Spaces "  ".toList := by simp [Spaces]
  have longer := (ofText_respaced none two spaces_nil (.inl rfl) _).mpr line
  exact ⟨⟨wider, gap⟩, longer, line⟩

end LineBasic
