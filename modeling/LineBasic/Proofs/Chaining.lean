import LineBasic.Grammar.Reading
import LineBasic.Proofs.Alike
import LineBasic.Proofs.Spans
import LineBasic.Proofs.Traversal
import LineBasic.Proofs.WellFormed

/-
  LineBasic.Proofs.Chaining — a colon behind a statement begins the next one, and nothing crosses it.

  (1) Outside quotes no single statement reads a colon or looks past one. No lexeme but quoted text goes on into a colon
      or a space (`Breaks`). Where the double quotes ahead are even in number, a rule replies alike with or without a
      colon and more behind its text (`Composed.extend`). What it reads has an even number of quotes, so it leaves an
      even number.
  (2) So behind a line that is read to its end, a colon and more text are read as that text is read on its own, and what
      the line itself misses is missed before the colon (`runs_on`).
  (3) A text of two parts with a colon between them has the trees of the two, one after the other, or the failure of the
      second part at its place in the whole.
-/

namespace LineBasic

variable {α β : Type}

/-! ## (1) Nothing looks past a colon -/

/-- Every quote that is opened is closed. -/
def Balanced (t : Text) : Prop := t.count '"' % 2 = 0

theorem balanced_append {s t : Text} (hs : Balanced s) : Balanced (s ++ t) ↔ Balanced t := by
  unfold Balanced at hs ⊢
  rw [List.count_append]
  omega

theorem balanced_of_not_mem {s : Text} (h : '"' ∉ s) : Balanced s := by
  unfold Balanced
  rw [List.count_eq_zero_of_not_mem h]

theorem spaces_balanced {s : Text} (h : Spaces s) : Balanced s :=
  balanced_of_not_mem fun hm => absurd (h _ hm) (by decide)

/-- The reply where `a` stands behind the text. -/
def Reply.extend (a : Text) (r : Reply α) : Reply α :=
  match r.outcome with
  | .found v d => ⟨.found v ⟨d.offset, d.rest ++ a⟩, r.misses⟩
  | .missing => ⟨.missing, r.misses⟩
  | .aborted cause => ⟨.aborted cause, r.misses⟩

def Cursor.extend (a : Text) (c : Cursor) : Cursor := ⟨c.offset, c.rest ++ a⟩

@[simp] theorem Reply.misses_extend (a : Text) (r : Reply α) : (r.extend a).misses = r.misses := by
  obtain ⟨outcome, misses⟩ := r
  cases outcome <;> rfl

theorem Reply.outcome_extend {a : Text} {r : Reply α} {v : α} {d : Cursor} (h : r.outcome = .found v d) :
    (r.extend a).outcome = .found v (d.extend a) := by
  rw [Reply.extend, h]
  rfl

theorem Reply.found_extend {a : Text} {r : Reply α} {v : α} {d : Cursor} (h : (r.extend a).outcome = .found v d) :
    ∃ e, r.outcome = .found v e ∧ d = e.extend a := by
  cases ho : r.outcome with
  | found w e =>
    rw [outcome_extend ho] at h
    cases h
    exact ⟨e, rfl, rfl⟩
  | missing =>
    rw [extend, ho] at h
    cases h
  | aborted cause =>
    rw [extend, ho] at h
    cases h

theorem Reply.aborted_extend {a : Text} {r : Reply α} {cause : Abort} :
    (r.extend a).outcome = .aborted cause ↔ r.outcome = .aborted cause := by
  obtain ⟨outcome, misses⟩ := r
  cases outcome <;> simp [extend]

theorem takeWhile_stops {p : Char → Bool} {k : Text} (hk : Stops p k) (t : Text) :
    (t ++ k).takeWhile p = t.takeWhile p := by
  obtain ⟨s, r, rfl, hs, hr⟩ := exists_run p t
  rw [List.append_assoc, takeWhile_run hs hr]
  cases r with
  | nil => exact takeWhile_run hs hk
  | cons c r => exact takeWhile_run hs (by simpa using hr)

theorem dropWhile_stops {p : Char → Bool} {k : Text} (hk : Stops p k) (t : Text) :
    (t ++ k).dropWhile p = t.dropWhile p ++ k := by
  obtain ⟨s, r, rfl, hs, hr⟩ := exists_run p t
  rw [List.append_assoc, dropWhile_run hs hr]
  cases r with
  | nil => exact dropWhile_run hs hk
  | cons c r => exact dropWhile_run hs (by simpa using hr)

/-- A text that begins with a colon or a space, or is empty. No lexeme but quoted text goes on into it. -/
def Breaks (k : Text) : Prop := ∀ c ∈ k.head?, c = ':' ∨ c = ' '

theorem breaks_colon (u : Text) : Breaks (':' :: u) := by simp [Breaks]

theorem Breaks.stops {k : Text} (h : Breaks k) {p : Char → Bool} (hc : p ':' = false) (hs : p ' ' = false) :
    Stops p k := by
  intro c hk
  rcases h c hk with rfl | rfl
  · exact hc
  · exact hs

/-- A text that does not hold the first character of `k` does not go on into `k`. -/
theorem prefix_stops {w k : Text} (absent : ∀ x ∈ k.head?, x ∉ w) (t : Text) : w <+: t ++ k ↔ w <+: t := by
  cases k with
  | nil => rw [List.append_nil]
  | cons x u =>
    refine ⟨fun h => ?_, fun h => h.trans (List.prefix_append t _)⟩
    by_cases hlen : w.length ≤ t.length
    · exact List.prefix_of_prefix_length_le h (List.prefix_append t _) hlen
    · have mark : t ++ [x] <+: t ++ x :: u := by simp
      have inside : t ++ [x] <+: w := List.prefix_of_prefix_length_le mark h (by simp; omega)
      exact absurd (inside.subset (by simp)) (absent x rfl)

theorem prefix_colon {w : Text} (h : ':' ∉ w) (t u : Text) : w <+: t ++ ':' :: u ↔ w <+: t :=
  prefix_stops (by simpa using h) t

namespace Rule

variable {words : List String} {p : Rule α} {c d : Cursor} {a u : Text}

/-- Neither a quote nor a colon is in a literal text. -/
def Plain (words : List String) : Prop := ∀ word ∈ words, '"' ∉ word.toList ∧ ':' ∉ word.toList

/-! What a lexeme reads has as many quotes opened as closed. -/

theorem digits_balanced {w : Text} (h : Digits w) : Balanced w :=
  balanced_of_not_mem fun hm => by simpa using h.2 _ hm

theorem balanced_literal {word : String} (h : '"' ∉ word.toList) : Sound (literal word) fun s _ => Balanced s := by
  refine (sound_literal word).mono fun s _ hs => ?_
  rw [hs]
  exact balanced_of_not_mem h

theorem balanced_letter : Sound letter fun s _ => Balanced s := by
  refine sound_letter.mono fun s v hv => balanced_of_not_mem fun hm => ?_
  obtain ⟨rfl, hv⟩ := hv
  obtain rfl := List.mem_singleton.mp hm
  simp at hv

theorem balanced_quoted : Sound quoted fun s _ => Balanced s := by
  refine sound_quoted.mono fun s v hv => ?_
  obtain ⟨rfl, hv⟩ := hv
  simp [Balanced, List.count_eq_zero_of_not_mem hv]

theorem balanced_digits : Sound (lexeme .integer Lexeme.digits) fun s _ => Balanced s :=
  sound_digits.mono fun _ _ h => digits_balanced (h.1 ▸ h.2)

theorem balanced_real : Sound real fun s _ => Balanced s := by
  refine sound_real.mono fun s v hv => ?_
  obtain ⟨w, f, hw, hf, rfl, -⟩ := hv
  exact (balanced_append (digits_balanced hw)).mpr
    ((balanced_append (s := ['.']) (by simp [Balanced])).mpr (digits_balanced hf))

theorem balanced_functionName : Sound functionName fun s _ => Balanced s := by
  refine sound_functionName.mono fun s v hv => balanced_of_not_mem fun hm => ?_
  obtain ⟨rfl, hv⟩ := hv
  simpa using hv _ hm

/-- What a rule reads has as many quotes opened as closed. -/
theorem Composed.balanced (h : Composed words False p c) (hw : Plain words) :
    ∀ v d, (p.run c).outcome = .found v d → ∃ s, c.Reads s d ∧ Balanced s := by
  have joined {c d e : Cursor} (hs : ∃ s, c.Reads s d ∧ Balanced s) (ht : ∃ s, d.Reads s e ∧ Balanced s) :
      ∃ s, c.Reads s e ∧ Balanced s := by
    obtain ⟨s, hs, bs⟩ := hs
    obtain ⟨t, ht, bt⟩ := ht
    exact ⟨s ++ t, hs.trans ht, (balanced_append bs).mpr bt⟩
  induction h with
  | pure v c =>
    rintro _ _ ⟨⟩
    exact ⟨[], c.reads_nil, rfl⟩
  | bind _ _ ih ihf =>
    intro w e h
    obtain ⟨v, d, h₁, h₂⟩ := found_bind.mp h
    exact joined (ih v d h₁) (ihf v d h₁ w e h₂)
  | orElse _ _ ih ih' =>
    intro v d h
    rcases found_orElse.mp h with h | ⟨-, h⟩
    · exact ih v d h
    · exact ih' v d h
  | spaces c =>
    intro v d h
    obtain ⟨s, hs, hsp⟩ := sound_spaces c v d h
    exact ⟨s, hs, spaces_balanced hsp⟩
  | @literal word c hm => exact balanced_literal (hw word hm).1 c
  | letter c => exact balanced_letter c
  | quoted c => exact balanced_quoted c
  | real c => exact balanced_real c
  | integer c => exact sound_integer.mono (fun _ _ h => digits_balanced h.1) c
  | @call β g c _ _ ih =>
    intro w e h
    obtain ⟨start, _, h₀, h⟩ := found_bind.mp h
    cases h₀
    obtain ⟨name, d, h₁, h₂⟩ := found_bind.mp h
    cases hb : Grammar.builtIn? name with
    | none =>
      rw [hb] at h₂
      cases h₂
    | some function =>
      rw [hb] at h₂
      exact joined (balanced_functionName c name d h₁) (ih name d function h₁ hb w e h₂)
  | @checked α β p f c _ _ hf ih =>
    intro w e h
    obtain ⟨start, _, h₀, h⟩ := found_bind.mp h
    cases h₀
    obtain ⟨v, d, h₁, h₂⟩ := found_bind.mp h
    rcases hf v with ⟨_, hv⟩ | hv
    · rw [hv] at h₂
      cases h₂
      exact ih v _ h₁
    · rw [hv] at h₂
      cases h₂
  | restOfLine c h => exact h.elim

/-- A lexeme that scans alike with `a` behind the text. -/
theorem extend_lexeme {wanted : Wanted} {scan : Text → Option (α × Nat)} (ha : Advances (lexeme wanted scan))
    (h : scan (c.rest ++ a) = scan c.rest) :
    (lexeme wanted scan).run (c.extend a) = ((lexeme wanted scan).run c).extend a := by
  have found := ha c
  simp only [lexeme, Cursor.extend, h] at found ⊢
  cases hs : scan c.rest with
  | none => rfl
  | some r =>
    rw [hs] at found
    obtain ⟨s, hr, ho⟩ := found r.1 _ rfl
    have inside : r.2 ≤ c.rest.length := by
      simp only [Cursor.advance] at hr ho
      have := congrArg List.length hr
      rw [List.length_append] at this
      omega
    simp [Reply.extend, Cursor.advance, List.drop_append_of_le_length inside]

theorem extend_andThen {β : Type} {r : Reply α} {f g : α → Cursor → Reply β}
    (h : ∀ v d, r.outcome = .found v d → g v (d.extend a) = (f v d).extend a) :
    (r.extend a).andThen g = (r.andThen f).extend a := by
  obtain ⟨outcome, misses⟩ := r
  cases outcome with
  | missing => rfl
  | aborted cause => rfl
  | found v d =>
    have hd := h v d rfl
    simp only [Cursor.extend] at hd
    simp only [Reply.extend, Reply.andThen, hd, Reply.after]
    cases (f v d).outcome <;> rfl

theorem extend_orTry {r : Reply α} {f g : Unit → Reply α} (h : g () = (f ()).extend a) :
    (r.extend a).orTry g = (r.orTry f).extend a := by
  obtain ⟨outcome, misses⟩ := r
  cases outcome with
  | found v d => rfl
  | aborted cause => rfl
  | missing =>
    simp only [Reply.extend, Reply.orTry, h, Reply.after]
    cases (f ()).outcome <;> rfl

section Break

variable {k : Text}

theorem scan_digits_break (hk : Breaks k) (t : Text) : Lexeme.digits (t ++ k) = Lexeme.digits t := by
  have stops : Stops Char.isDigit k := hk.stops (by decide) (by decide)
  simp only [Lexeme.digits, takeWhile_stops stops]

theorem scan_real_break (hk : Breaks k) (t : Text) : Lexeme.real (t ++ k) = Lexeme.real t := by
  have stops : Stops Char.isDigit k := hk.stops (by decide) (by decide)
  have noPoint : Stops (· = '.') k := hk.stops (by decide) (by decide)
  simp only [Lexeme.real, takeWhile_stops stops, dropWhile_stops stops]
  cases t.dropWhile Char.isDigit with
  | nil =>
    cases k with
    | nil => rfl
    | cons c k =>
      have hc : c ≠ '.' := by simpa using noPoint
      rw [List.nil_append]
      split
      · rename_i h
        cases h
        exact absurd rfl hc
      · rfl
  | cons c r =>
    rw [List.cons_append]
    by_cases hc : c = '.'
    · subst hc
      simp only [takeWhile_stops stops]
    · split
      · rename_i h
        cases h
        exact absurd rfl hc
      · split
        · rename_i h
          cases h
          exact absurd rfl hc
        · rfl

theorem scan_letter_break (hk : Breaks k) (t : Text) : Lexeme.letter (t ++ k) = Lexeme.letter t := by
  cases t with
  | cons c t => rfl
  | nil =>
    have stops : Stops Char.isAlpha k := hk.stops (by decide) (by decide)
    cases k with
    | nil => rfl
    | cons c k =>
      have hc : c.isAlpha = false := by simpa using stops
      simp [Lexeme.letter, hc]

/-- A quote that opens is closed before the break. -/
theorem scan_quoted_break (hk : Breaks k) {t : Text} (h : Balanced t) : Lexeme.quoted (t ++ k) = Lexeme.quoted t := by
  cases t with
  | nil =>
    have stops : Stops (· = '"') k := hk.stops (by decide) (by decide)
    cases k with
    | nil => rfl
    | cons c k =>
      have hc : c ≠ '"' := by simpa using stops
      simp [Lexeme.quoted, hc]
  | cons c t =>
    by_cases hc : c = '"'
    · subst hc
      have closes : '"' ∈ t := Decidable.byContradiction fun hn => by
        simp [Balanced, List.count_eq_zero_of_not_mem hn] at h
      obtain ⟨b, r, rfl, hb, hr⟩ := exists_run (fun c => decide (c ≠ '"')) t
      cases r with
      | nil =>
        rw [List.append_nil] at closes
        simpa using hb _ closes
      | cons q r =>
        have ht := takeWhile_run hb hr
        have ht' : (b ++ q :: (r ++ k)).takeWhile (fun c => decide (c ≠ '"')) = b :=
          takeWhile_run hb (by simpa using hr)
        simp only [Lexeme.quoted, List.cons_append, List.append_assoc, ht, ht']
        simp
    · simp [Lexeme.quoted, hc]

theorem scan_functionName_break (hk : Breaks k) (t : Text) : Lexeme.functionName (t ++ k) = Lexeme.functionName t := by
  have name : (t ++ k).takeWhile Char.isUpper = t.takeWhile Char.isUpper :=
    takeWhile_stops (hk.stops (by decide) (by decide)) t
  have noParenthesis : Stops (· = '(') k := hk.stops (by decide) (by decide)
  have short : (t.takeWhile Char.isUpper).length ≤ t.length := (List.takeWhile_prefix _).length_le
  simp only [Lexeme.functionName, name, List.drop_append_of_le_length short]
  cases t.drop (t.takeWhile Char.isUpper).length with
  | nil => simp [noParenthesis.head_ne]
  | cons c r => simp

end Break

/-- Where the quotes ahead are balanced, a rule replies alike with a colon and more behind the text. -/
theorem Composed.extend (h : Composed words False p c) (hw : Plain words) (hb : Balanced c.rest) (u : Text) :
    p.run (c.extend (':' :: u)) = (p.run c).extend (':' :: u) := by
  have left {c d : Cursor} {s : Text} (hs : c.Reads s d) (hb : Balanced c.rest) (h : Balanced s) : Balanced d.rest := by
    rw [hs.1] at hb
    exact (balanced_append h).mp hb
  induction h with
  | pure v c => rfl
  | bind hp _ ih ihf =>
    rw [run_bind, run_bind, ih hb]
    refine extend_andThen fun v d hd => ihf v d hd ?_
    obtain ⟨s, hs, bs⟩ := hp.balanced hw v d hd
    exact left hs hb bs
  | orElse _ _ ih ih' =>
    rw [run_orElse, run_orElse, ih hb]
    exact extend_orTry (ih' hb)
  | spaces c =>
    have same : (c.rest ++ ':' :: u).takeWhile (fun c => decide (c = ' ')) = c.rest.takeWhile fun c => decide (c = ' ') :=
      takeWhile_stops (by simp) c.rest
    have short : (c.rest.takeWhile fun c => decide (c = ' ')).length ≤ c.rest.length :=
      (List.takeWhile_prefix _).length_le
    simp only [Rule.spaces, Cursor.extend, same, Reply.extend, Cursor.advance, List.drop_append_of_le_length short]
  | @literal word c hm =>
    refine extend_lexeme (advances_literal word) ?_
    simp only [List.isPrefixOf_iff_prefix, prefix_colon (hw word hm).2]
  | letter c => exact extend_lexeme advances_letter (scan_letter_break (breaks_colon u) c.rest)
  | quoted c => exact extend_lexeme sound_quoted.advances (scan_quoted_break (breaks_colon u) hb)
  | real c => exact extend_lexeme sound_real.advances (scan_real_break (breaks_colon u) c.rest)
  | integer c =>
    unfold Rule.integer
    rw [run_bind, run_bind, extend_lexeme sound_digits.advances (scan_digits_break (breaks_colon u) c.rest)]
    refine extend_andThen fun v d _ => ?_
    split <;> rfl
  | @call β g c _ _ ih =>
    have named : functionName.run (c.extend (':' :: u)) = (functionName.run c).extend (':' :: u) :=
      extend_lexeme sound_functionName.advances (scan_functionName_break (breaks_colon u) c.rest)
    rw [run_here, run_here, run_bind, run_bind, named]
    refine extend_andThen fun name d hd => ?_
    obtain ⟨s, hs, bs⟩ := balanced_functionName c name d hd
    cases hf : Grammar.builtIn? name with
    | none => rfl
    | some function => exact ih name d function hd hf (left hs hb bs)
  | @checked α β p f c _ _ hf ih =>
    rw [run_here, run_here, run_bind, run_bind, ih hb]
    refine extend_andThen fun v d _ => ?_
    rcases hf v with ⟨w, hv⟩ | hv
    · rw [hv, hv]
      rfl
    · rw [hv, hv]
      rfl
  | restOfLine c h => exact h.elim

end Rule

/-! ## (2) Lines -/

/-- The statements of one line and then those of another. -/
def Statement.append : Statement → Statement → Statement
  | .sequence first rest, t => .sequence first (rest.append t)
  | s, t => .sequence s t

/-- The last statement of a line. -/
def Statement.last : Statement → Statement
  | .sequence _ rest => rest.last
  | s => s

/-- The statements of a line in their order. -/
def Statement.singles : Statement → List Statement
  | .sequence first rest => first :: rest.singles
  | s => [s]

theorem Statement.singles_append {s : Statement} (t : Statement) : (s.append t).singles = s.singles ++ t.singles := by
  induction s with
  | sequence first rest _ ih => simp [append, singles, ih]
  | _ => rfl

theorem Statement.IsSingle.append {s : Statement} (h : s.IsSingle) (t : Statement) : s.append t = .sequence s t := by
  cases s with
  | sequence => cases h
  | _ => rfl

theorem Statement.IsSingle.ne_remark {s : Statement} (h : s.IsSingle) : s ≠ .remark := by
  rintro rfl
  exact h

namespace Grammar

open Rule

theorem plain_statementWords : Plain statementWords := by
  unfold Plain
  decide

theorem run_spaces {a k : Text} (o : Nat) (ha : Spaces a) (hk : Stops isSpace k) :
    spaces.run ⟨o, a ++ k⟩ = ⟨.found () ⟨o + a.length, k⟩, []⟩ := by
  have run : (a ++ k).takeWhile (fun c => decide (c = ' ')) = a := takeWhile_run ha.isSpace hk
  simp [spaces, run, Cursor.advance]

theorem exists_spaces (t : Text) : ∃ a k, t = a ++ k ∧ Spaces a ∧ Stops isSpace k := by
  obtain ⟨a, k, rfl, ha, hk⟩ := exists_run isSpace t
  exact ⟨a, k, rfl, fun c hc => by simpa [isSpace] using ha c hc, hk⟩

/-- A colon and a statement behind `first`. -/
def another (first : Statement) : Rule Statement := do
  spaces; literal ":"; spaces
  let rest ← statement
  pure (.sequence first rest)

theorem statement_eq_another : statement = (do
    let first ← firstOf statementRules
    another first <|> pure first) := statement_eq

/-- The rule for a remark and the rules for the other statements. -/
theorem statementRules_remark :
    firstOf statementRules = (remarkStatement <|> firstOf statementRules.tail) := rfl

theorem remarkStatement_found {c : Cursor} (h : "REM".toList <+: c.rest) :
    (remarkStatement.run c).outcome = .found .remark (c.advance "REM".toList.length).finish := by
  unfold remarkStatement
  rw [run_bind_found (v := ()) (d := c.advance "REM".toList.length) (by rw [run_literal h])]
  rfl

theorem remarkStatement_missing {c : Cursor} (h : ¬ "REM".toList <+: c.rest) :
    remarkStatement.run c = ⟨.missing, [⟨c.offset, .symbol "REM"⟩]⟩ := by
  unfold remarkStatement
  rw [run_bind_missing (by rw [run_literal_absent h]), run_literal_absent h]

theorem remarkStatement_extend {c : Cursor} (h : ¬ "REM".toList <+: c.rest) (u : Text) :
    remarkStatement.run (c.extend (':' :: u)) = (remarkStatement.run c).extend (':' :: u) := by
  have h' : ¬ "REM".toList <+: (c.extend (':' :: u)).rest := fun hp => h ((prefix_colon (by decide) c.rest u).mp hp)
  rw [remarkStatement_missing h, remarkStatement_missing h']
  rfl

theorem composed_others (c : Cursor) : Composed statementWords False (firstOf statementRules.tail) c :=
  ComposedBelow.firstOf (n := c.rest.length + 1) (by simp [statementRules])
    (composed_statementRules (List.Subset.refl _)) c (Nat.lt_succ_self _)

/-- Where no remark is ahead, a single statement is looked for alike with a colon and more behind it. -/
theorem single_extend {c : Cursor} (h : ¬ "REM".toList <+: c.rest) (hb : Balanced c.rest) (u : Text) :
    (firstOf statementRules).run (c.extend (':' :: u)) = ((firstOf statementRules).run c).extend (':' :: u) := by
  rw [statementRules_remark, run_orElse, run_orElse, remarkStatement_extend h]
  exact extend_orTry ((composed_others c).extend plain_statementWords hb u)

/-- A single statement other than a remark is read alike with a colon and more behind it, and leaves its quotes
    closed. -/
theorem single_colon {c d : Cursor} {s : Statement} (h : ((firstOf statementRules).run c).outcome = .found s d)
    (hs : s ≠ .remark) : ¬ "REM".toList <+: c.rest ∧
    (∃ read, c.Reads read d ∧ Balanced read) ∧ ∀ u, Balanced c.rest →
      (firstOf statementRules).run (c.extend (':' :: u)) = ((firstOf statementRules).run c).extend (':' :: u) := by
  have noRemark : ¬ "REM".toList <+: c.rest := by
    intro hp
    have found := remarkStatement_found hp
    rw [statementRules_remark, run_orElse_found found, found] at h
    cases h
    exact hs rfl
  have none : (remarkStatement.run c).outcome = .missing := by rw [remarkStatement_missing noRemark]
  rw [statementRules_remark, run_orElse_missing none] at h
  exact ⟨noRemark, (composed_others c).balanced plain_statementWords s d h, fun u hb => single_extend noRemark hb u⟩

theorem run_another {a b k : Text} (first : Statement) (o : Nat) (ha : Spaces a) (hb : Spaces b) (hk : Stops isSpace k) :
    (another first).run ⟨o, a ++ ':' :: (b ++ k)⟩ =
      (statement.run ⟨o + a.length + 1 + b.length, k⟩).andThen fun rest => (pure (.sequence first rest) : Rule _).run := by
  have ahead : ":".toList <+: (⟨o + a.length, ':' :: (b ++ k)⟩ : Cursor).rest := ⟨b ++ k, rfl⟩
  have colon : (literal ":").run ⟨o + a.length, ':' :: (b ++ k)⟩ = ⟨.found () ⟨o + a.length + 1, b ++ k⟩, []⟩ :=
    run_literal ahead
  unfold another
  rw [run_bind, run_spaces o ha (by simp [isSpace])]
  show ((((literal ":").run ⟨o + a.length, ':' :: (b ++ k)⟩).andThen _).after []) = _
  rw [colon]
  show (((spaces.run ⟨o + a.length + 1, b ++ k⟩).andThen _).after []).after [] = _
  rw [run_spaces _ hb hk]
  rfl

/-- What stands before another statement, if there is one. -/
theorem another_missing (first : Statement) (c : Cursor) :
    (∃ a b k, c.rest = a ++ ':' :: (b ++ k) ∧ Spaces a ∧ Spaces b ∧ Stops isSpace k) ∨
      ((another first).run c).outcome = .missing := by
  obtain ⟨a, k, ht, ha, hk⟩ := exists_spaces c.rest
  by_cases hc : k.head? = some ':'
  · obtain ⟨t, rfl⟩ := List.head?_eq_some_iff.mp hc
    obtain ⟨b, k, rfl, hb, hk⟩ := exists_spaces t
    exact .inl ⟨a, b, k, ht, ha, hb, hk⟩
  · have none : Skips False (another first) c.rest :=
      skips_spaces_literal (c := ':') rfl (by rw [ht, dropWhile_run ha.isSpace hk]; exact hc)
    exact .inr ((none c.offset).resolve id)

/-- How a line goes on that was read as `v` up to `d`, if the text behind its colon gives the outcome. -/
def behind (v : Statement) (d : Cursor) : Outcome Statement → Outcome Statement
  | .found w e => .found (v.append w) e
  | .missing => .found v d
  | .aborted cause => .aborted cause

/-- The line at `c` was read as `v` up to `d`. With a colon and `u` behind it, it is read as `v` and then `u`, and all
    that it misses besides what is missed in `u` it misses before the colon. -/
def RunsOn (c : Cursor) (v : Statement) (d : Cursor) (u : Text) : Prop :=
  let r := statement.run ⟨c.offset + c.rest.length + 1, u⟩
  ∃ before, (∀ m ∈ before, m.offset ≤ c.offset + c.rest.length) ∧
    statement.run (c.extend (':' :: u)) = ⟨behind v (d.extend (':' :: u)) r.outcome, before ++ r.misses⟩

/-- What a line does with a colon behind it is what its first statement leaves to the rule for another one. -/
theorem run_extended {c c₁ : Cursor} {first : Statement} {u : Text}
    (h : ((firstOf statementRules).run c).outcome = .found first c₁) (hf : first.IsSingle) (hc : Balanced c.rest) :
    statement.run (c.extend (':' :: u)) =
      ((another first <|> pure first).run (c₁.extend (':' :: u))).after ((firstOf statementRules).run c).misses := by
  have reply : (firstOf statementRules).run (c.extend (':' :: u)) =
      ⟨.found first (c₁.extend (':' :: u)), ((firstOf statementRules).run c).misses⟩ := by
    rw [(single_colon h hf.ne_remark).2.2 u hc, Reply.extend, h]
    rfl
  rw [statement_eq_another, run_bind_found (d := c₁.extend (':' :: u)) (v := first) (by rw [reply]), reply]

theorem single_between {c : Cursor} {m : Miss} (hm : m ∈ ((firstOf statementRules).run c).misses) :
    m.offset ≤ c.offset + c.rest.length :=
  ((composed_single (List.Subset.refl _) c (Nat.lt_succ_self _)).attentive.between hm).2

variable {c c₁ d : Cursor} {v first rest : Statement} {u : Text}

/-- A line of one statement. -/
theorem runs_on_single (h : ((firstOf statementRules).run c).outcome = .found v d) (hv : v.IsSingle)
    (hd : Spaces d.rest) (hc : Balanced c.rest) (hu : Stops isSpace u) : RunsOn c v d u := by
  obtain ⟨-, ⟨s, hs, -⟩, -⟩ := single_colon h hv.ne_remark
  have more : (another v).run (d.extend (':' :: u)) =
      (statement.run ⟨c.offset + c.rest.length + 1, u⟩).andThen fun rest => (pure (.sequence v rest) : Rule _).run := by
    have run := run_another v d.offset hd spaces_nil hu
    simp only [List.nil_append, List.length_nil, Nat.add_zero, ← hs.finish] at run
    exact run
  refine ⟨((firstOf statementRules).run c).misses, fun m hm => single_between hm, ?_⟩
  rw [run_extended h hv hc, run_orElse, more]
  generalize statement.run ⟨c.offset + c.rest.length + 1, u⟩ = r
  obtain ⟨outcome, misses⟩ := r
  cases outcome <;> simp [Reply.andThen, Reply.orTry, Reply.after, behind, hv.append]

/-- A line of one statement before a line that runs on. -/
theorem runs_on_sequence {a b k : Text} (h : ((firstOf statementRules).run c).outcome = .found first c₁)
    (hf : first.IsSingle) (hc : Balanced c.rest) (ha : Spaces a) (hb : Spaces b) (hk : Stops isSpace k)
    (ht : c₁.rest = a ++ ':' :: (b ++ k))
    (hr : RunsOn ⟨c₁.offset + a.length + 1 + b.length, k⟩ rest d u) : RunsOn c (.sequence first rest) d u := by
  obtain ⟨-, ⟨s, hs, -⟩, -⟩ := single_colon h hf.ne_remark
  have place : c₁.offset + a.length + 1 + b.length + k.length = c.offset + c.rest.length := by
    rw [hs.finish, ht]
    simp
    omega
  have more : (another first).run (c₁.extend (':' :: u)) =
      (statement.run ⟨c₁.offset + a.length + 1 + b.length, k ++ ':' :: u⟩).andThen fun rest =>
        (pure (.sequence first rest) : Rule _).run := by
    have hk' : Stops isSpace (k ++ ':' :: u) := by
      cases k with
      | nil => simp [isSpace]
      | cons c k => simpa using hk
    have text : c₁.extend (':' :: u) = ⟨c₁.offset, a ++ ':' :: (b ++ (k ++ ':' :: u))⟩ := by simp [Cursor.extend, ht]
    rw [text]
    exact run_another first c₁.offset ha hb hk'
  obtain ⟨before, near, reply⟩ := hr
  simp only [Cursor.extend, place] at near reply
  refine ⟨((firstOf statementRules).run c).misses ++ before, fun m hm => ?_, ?_⟩
  · rcases List.mem_append.mp hm with hm | hm
    · exact single_between hm
    · exact near m hm
  rw [run_extended h hf hc, run_orElse, more, reply]
  generalize statement.run ⟨c.offset + c.rest.length + 1, u⟩ = r
  obtain ⟨outcome, misses⟩ := r
  cases outcome <;>
    simp [Reply.andThen, Reply.orTry, Reply.after, behind, Statement.append, Cursor.extend]

/-- A line that is read up to the spaces at its end and does not end in a remark has its quotes closed, and runs on. -/
theorem runs_on (h : (statement.run c).outcome = .found v d) (hd : Spaces d.rest) (hv : v.last ≠ .remark) :
    Balanced c.rest ∧ ∀ u, Stops isSpace u → RunsOn c v d u := by
  induction hn : c.rest.length using Nat.strongRecOn generalizing c v with
  | ind n ih =>
    have parts := h
    rw [statement_eq_another] at parts
    obtain ⟨first, c₁, h₁, h₂⟩ := found_bind.mp parts
    -- A remark leaves nothing, so no other statement would be behind it.
    have hf : first.IsSingle := by
      rcases found_single h₁ with ⟨-, hf⟩ | ⟨rfl, hend⟩
      · exact hf
      · rcases another_missing .remark c₁ with ⟨a, b, k, ht, -⟩ | none
        · rw [hend] at ht
          simp at ht
        · rcases found_orElse.mp h₂ with h₂ | ⟨-, h₂⟩
          · rw [none] at h₂
            cases h₂
          · cases h₂
            exact absurd rfl hv
    obtain ⟨-, ⟨s, hs, bs⟩, -⟩ := single_colon h₁ hf.ne_remark
    have balance : Balanced c₁.rest → Balanced c.rest := fun hb => by
      rw [hs.1]
      exact (balanced_append bs).mpr hb
    rcases found_orElse.mp h₂ with h₂ | ⟨-, h₂⟩
    · rcases another_missing first c₁ with ⟨a, b, k, ht, ha, hb, hk⟩ | none
      · have text : c₁ = ⟨c₁.offset, a ++ ':' :: (b ++ k)⟩ := by rw [← ht]
        rw [text, run_another first c₁.offset ha hb hk, Reply.outcome_andThen] at h₂
        split at h₂
        · rename_i rest e hrest
          cases h₂
          have shorter : k.length < n := by
            rw [← hn, hs.1, ht]
            simp
            omega
          obtain ⟨bk, hr⟩ := ih k.length shorter hrest hv rfl
          have bc : Balanced c.rest := by
            refine balance ?_
            rw [ht]
            refine (balanced_append (spaces_balanced ha)).mpr ?_
            refine (balanced_append (s := [':']) (by simp [Balanced])).mpr ?_
            exact (balanced_append (spaces_balanced hb)).mpr bk
          exact ⟨bc, fun u hu => runs_on_sequence h₁ hf bc ha hb hk ht (hr u hu)⟩
        · cases h₂
        · cases h₂
      · rw [none] at h₂
        cases h₂
    · cases h₂
      have bc : Balanced c.rest := balance (spaces_balanced hd)
      exact ⟨bc, fun u hu => runs_on_single h₁ hf hd bc hu⟩

end Grammar

/-! ## (3) Texts -/

/-- Misses before the first one that counts, and after it but nearer than it, change nothing. -/
theorem Frontier.recordAll_within {n : Nat} {before misses after : List Miss} (hn : 0 < n) (hne : misses ≠ [])
    (hb : ∀ m ∈ before, m.offset < n) (hm : ∀ m ∈ misses, n ≤ m.offset) (ha : ∀ m ∈ after, m.offset < n) :
    (start 0).recordAll (before ++ misses ++ after) = (start n).recordAll misses := by
  have nearer (f : Frontier) (hf : n ≤ f.farthest) (after : List Miss) (ha : ∀ m ∈ after, m.offset < n) :
      f.recordAll after = f := by
    induction after with
    | nil => rfl
    | cons m after ih =>
      have hlt := ha m List.mem_cons_self
      have kept : f.record m = f := by
        unfold record
        rw [if_neg (by omega), if_neg (by omega)]
      show (f.record m).recordAll after = f
      rw [kept]
      exact ih fun m hm => ha m (List.mem_cons_of_mem _ hm)
  obtain ⟨m, rest, rfl⟩ := List.exists_cons_of_ne_nil hne
  have first : ((start 0).recordAll before).record m = (start n).record m := by
    have hfar : ((start 0).recordAll before).farthest < n := by
      rcases (farthest_recordAll (start 0) before).2.2 with h | ⟨b, hmem, h⟩
      · rw [h]
        exact hn
      · rw [← h]
        exact hb b hmem
    have hle := hm m List.mem_cons_self
    unfold record
    rw [if_pos (by omega)]
    by_cases h : (start n).farthest < m.offset
    · rw [if_pos h]
    · have : m.offset = (start n).farthest := Nat.le_antisymm (Nat.le_of_not_lt h) hle
      rw [if_neg h, if_pos this, this]
      rfl
  have split : (start 0).recordAll (before ++ (m :: rest) ++ after) =
      ((((start 0).recordAll before).record m).recordAll rest).recordAll after := by
    simp [recordAll, List.foldl_append]
  rw [split, first]
  refine nearer _ ?_ after ha
  exact Nat.le_trans (hm m List.mem_cons_self)
    ((farthest_recordAll (start n) (m :: rest)).2.1 m List.mem_cons_self)

namespace Grammar

open Rule

/-- Spaces and the end of the span behind what was found. -/
theorem run_finish {a k : Text} (v : α) (o : Nat) (ha : Spaces a) (hk : Stops isSpace k) :
    (do spaces; endOfLine; pure v : Rule α).run ⟨o, a ++ k⟩ =
      if k = [] then ⟨.found v ⟨o + a.length, k⟩, []⟩ else ⟨.missing, [⟨o + a.length, .endOfLine⟩]⟩ := by
  rw [run_bind, run_spaces o ha hk]
  show ((endOfLine.run ⟨o + a.length, k⟩).andThen fun _ => (pure v : Rule α).run).after [] = _
  by_cases h : k = [] <;> simp [endOfLine, h, Reply.andThen, Reply.after]

/-- What is left behind a text that was read to its end. -/
theorem found_of_ofText {t : Text} {v : Statement} (h : Statement.ofText t = .ok v) :
    ∃ d, (statement.run ⟨0, t⟩).outcome = .found v d ∧ Spaces d.rest ∧ d.offset + d.rest.length = t.length := by
  obtain ⟨e, he⟩ := parse_eq_ok.mp h
  obtain ⟨v', d, hd, h1⟩ := found_bind.mp he
  obtain ⟨s, hs⟩ := advances_statement _ _ _ hd
  obtain ⟨a, k, ha, hsp, hk⟩ := exists_spaces d.rest
  have text : d = ⟨d.offset, a ++ k⟩ := by rw [← ha]
  rw [text, run_finish v' d.offset hsp hk] at h1
  have hk : k = [] := Decidable.byContradiction fun hne => by simp [hne] at h1
  subst hk
  simp only [if_true] at h1
  cases h1
  refine ⟨d, hd, by rwa [ha, List.append_nil], ?_⟩
  have := hs.finish
  simp only [Nat.zero_add] at this
  exact this.symm

/-- A line that was read to its end and does not end in a remark, with a colon and more text behind it, is read as the
    line and what that text is read as on its own. The text does not begin with a space, which a colon would swallow. -/
theorem ofText_colon {s₁ s₂ : Text} {t₁ : Statement} (h : Statement.ofText s₁ = .ok t₁) (hl : t₁.last ≠ .remark)
    (hs : s₂.head? ≠ some ' ') :
    Statement.ofText (s₁ ++ ':' :: s₂) =
      ((Statement.ofText s₂).mapError (Failure.shift (s₁.length + 1))).map t₁.append := by
  have hu : Stops isSpace s₂ := by
    intro c hc
    by_cases hsp : c = ' '
    · subst hsp
      exact absurd hc hs
    · simp [isSpace, hsp]
  obtain ⟨d, hd, hpad, place⟩ := found_of_ofText h
  obtain ⟨before, near, reply⟩ := (runs_on hd hpad hl).2 s₂ hu
  simp only [Nat.zero_add, Cursor.extend] at near reply
  have attentive := (composed_statement (s₂.length + 1) ⟨s₁.length + 1, s₂⟩ (Nat.lt_succ_self _)).attentive
  rw [show (Statement.ofText s₂).mapError _ = statement.parseSpan (s₁.length + 1) s₂ from
    (parseSpan_eq_parse (fun _ => shifts_statement) (s₁.length + 1) s₂).symm]
  show statement.parseSpan 0 (s₁ ++ ':' :: s₂) = _
  simp only [parseSpan, whole, run_bind statement, reply]
  generalize statement.run ⟨s₁.length + 1, s₂⟩ = r at attentive
  obtain ⟨outcome, misses⟩ := r
  -- The misses of the line are before the colon, those of the other text are behind it, and there is one.
  have beyond : ∀ m ∈ misses, s₁.length + 1 ≤ m.offset := fun m hm => (attentive.between hm).1
  have nearer : ∀ m ∈ before, m.offset < s₁.length + 1 := fun m hm => Nat.lt_succ_of_le (near m hm)
  cases outcome with
  | aborted cause => rfl
  | missing =>
    have finish := run_finish (k := ':' :: s₂) t₁ d.offset hpad (by simp [isSpace])
    rw [if_neg (by simp)] at finish
    have farthest : (Frontier.start 0).recordAll (before ++ misses ++ [⟨s₁.length, .endOfLine⟩]) =
        (Frontier.start (s₁.length + 1)).recordAll misses :=
      Frontier.recordAll_within (Nat.succ_pos _) (attentive.missing rfl) nearer beyond (by simp)
    simp only [behind, Reply.andThen, finish, place, Reply.after, farthest]
    rfl
  | found w e =>
    obtain ⟨s, hs⟩ := attentive.reads w e rfl
    obtain ⟨a, k, ha, hsp, hk⟩ := exists_spaces e.rest
    have text : e = ⟨e.offset, a ++ k⟩ := by rw [← ha]
    have far : s₁.length + 1 ≤ e.offset := hs.offset_le
    rw [text]
    simp only [behind, Reply.andThen, run_finish _ e.offset hsp hk, Reply.after]
    by_cases hend : k = []
    · simp [hend, Except.map]
    · have behindAll : ∀ m ∈ misses ++ [⟨e.offset + a.length, .endOfLine⟩], s₁.length + 1 ≤ m.offset := by
        intro m hm
        rcases List.mem_append.mp hm with hm | hm
        · exact beyond m hm
        · obtain rfl := List.mem_singleton.mp hm
          exact Nat.le_trans far (Nat.le_add_right _ _)
      have farthest : (Frontier.start 0).recordAll (before ++ misses ++ [⟨e.offset + a.length, .endOfLine⟩]) =
          (Frontier.start (s₁.length + 1)).recordAll (misses ++ [⟨e.offset + a.length, .endOfLine⟩]) := by
        have all := Frontier.recordAll_within (Nat.succ_pos _) (by simp) nearer behindAll (List.forall_mem_nil _)
        rwa [List.append_nil, ← List.append_assoc] at all
      simp only [if_neg hend, farthest]
      rfl

end Grammar

open Grammar

/-- Behind a line that is read to its end and does not end in a remark, a colon and more text have a tree if and only
    if that text has one: the statements of the line and then those of the text. The errors are those of the text,
    counted from the start of the whole. -/
theorem ofText_chain {s₁ s₂ : Text} {t₁ : Statement} (h : Statement.ofText s₁ = .ok t₁) (hl : t₁.last ≠ .remark)
    (hs : s₂.head? ≠ some ' ') :
    (∀ t, Statement.ofText (s₁ ++ ':' :: s₂) = .ok t ↔ ∃ t₂, Statement.ofText s₂ = .ok t₂ ∧ t = t₁.append t₂) ∧
    (∀ e, Statement.ofText (s₁ ++ ':' :: s₂) = .error (.badText e) ↔ ∃ e', Statement.ofText s₂ = .error (.badText e') ∧
      e.fatal = e'.fatal ∧ e.offset = e'.offset + (s₁.length + 1) ∧ e.expected = e'.expected ∧
      e.description = e'.description) ∧
    (∀ count, Statement.ofText (s₁ ++ ':' :: s₂) = .error (.tooManyDigits count) ↔
      Statement.ofText s₂ = .error (.tooManyDigits count)) := by
  rw [ofText_colon h hl hs]
  have errors {r : Except Failure Statement} {failure : Failure} :
      r.map t₁.append = .error failure ↔ r = .error failure := by
    cases r <;> simp [Except.map]
  refine ⟨fun t => ?_, fun e => errors.trans moved_badText, fun count => errors.trans moved_tooManyDigits⟩
  cases Statement.ofText s₂ with
  | ok t₂ =>
    show Except.ok (t₁.append t₂) = Except.ok t ↔ _
    simp [eq_comm]
  | error failure =>
    show Except.error _ = Except.ok t ↔ _
    simp

/-- Behind `END` and a colon, `RETURN` is one more statement, and for `GOTO` the integer is missing four characters on. -/
theorem ofText_chain_end :
    Statement.ofText "END".toList = .ok .finish ∧
      Statement.ofText (("END".toList : Text) ++ ':' :: ("RETURN".toList : Text)) = .ok (.sequence .finish .returnSub) ∧
      ∃ e, Statement.ofText (("END".toList : Text) ++ ':' :: ("GOTO".toList : Text)) = .error (.badText e) ∧
        e.fatal = false ∧ e.offset = 8 ∧ e.expected = ["an integer"] := by
  have line : Statement.ofText "END".toList = .ok .finish := by rfl
  have next : Statement.ofText "RETURN".toList = .ok .returnSub := by rfl
  have broken : Statement.ofText "GOTO".toList = .error (.badText (.wanting 4 ["an integer"])) := by rfl
  have kept : Statement.last .finish ≠ .remark := by simp [Statement.last]
  have noSpace : "RETURN".toList.head? ≠ some ' ' := by simp
  have noSpace' : "GOTO".toList.head? ≠ some ' ' := by simp
  have moved := (ofText_chain line kept noSpace').2.1 { ParseError.wanting 4 ["an integer"] with offset := 8 }
  exact ⟨line, ((ofText_chain line kept noSpace).1 _).mpr ⟨.returnSub, next, rfl⟩, _,
    moved.mpr ⟨_, broken, rfl, rfl, rfl, rfl⟩, rfl, rfl, rfl⟩

end LineBasic
