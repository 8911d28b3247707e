import LineBasic.Proofs.Reach

/-
  LineBasic.Proofs.Counting — where too many digits are counted, nothing has been missed behind them.

  A number of too many digits stops the parse, so there is no farthest miss to compare it with. But what came before it
  was found, and what is found looks no farther than where it might have gone on. Since it goes on to the number, that
  is before the first digit of it (`Tidy`). This is kept by sequence if the first part looks no farther than the next
  digit behind it, and by choice if the earlier alternatives look no farther than the next digit: that is shown for each
  rule, from the looks of its parts, and in the end for lines (`tidy_statement`).
-/

namespace LineBasic

variable {α β : Type}

/-- Too many digits have been counted. -/
def Reply.Overflows (r : Reply α) : Prop := ∃ n, r.outcome = .aborted (.tooManyDigits n)

/-- The offset of the next digit, or of the end if there is none. -/
def Cursor.nextDigit (c : Cursor) : Nat := c.offset + (c.rest.takeWhile fun x => !x.isDigit).length

theorem Cursor.nextDigit_le {c : Cursor} {s k : Text} {x : Char} (h : c.rest = s ++ x :: k) (hx : x.isDigit = true) :
    c.nextDigit ≤ c.offset + s.length := by
  have short : ((s ++ x :: k).takeWhile fun x => !x.isDigit).length ≤ s.length := by
    clear h
    induction s with
    | nil => simp [hx]
    | cons y s ih =>
      rw [List.cons_append, List.takeWhile_cons]
      split
      · simpa using ih
      · simp
  rw [← h] at short
  exact Nat.add_le_add_left short _

theorem Cursor.offset_le_nextDigit (c : Cursor) : c.offset ≤ c.nextDigit := Nat.le_add_right _ _

theorem takeWhile_length_le {p q : Char → Bool} (h : ∀ x, p x = true → q x = true) (t : Text) :
    (t.takeWhile p).length ≤ (t.takeWhile q).length := by
  induction t with
  | nil => simp
  | cons x t ih =>
    by_cases hx : p x = true
    · simpa [hx, h x hx] using ih
    · simp [hx]

/-- A digit is no space. -/
theorem Cursor.ahead_le_nextDigit (c : Cursor) : c.ahead ≤ c.nextDigit := by
  refine Nat.add_le_add_left (takeWhile_length_le (fun x hx => ?_) c.rest) _
  obtain rfl : x = ' ' := by simpa [isSpace] using hx
  rfl

namespace Rule

variable {p q : Rule α} {f : α → Rule β} {c d : Cursor} {v : α}

/-! ## What counts digits -/

theorem overflows_bind : ((p >>= f).run c).Overflows ↔
    (p.run c).Overflows ∨ ∃ v d, (p.run c).outcome = .found v d ∧ ((f v).run d).Overflows := by
  unfold Reply.Overflows
  simp only [aborted_bind, exists_or]
  refine or_congr_right ⟨fun h => ?_, fun h => ?_⟩
  · obtain ⟨n, v, d, hd, hn⟩ := h
    exact ⟨v, d, hd, n, hn⟩
  · obtain ⟨v, d, hd, n, hn⟩ := h
    exact ⟨n, v, d, hd, hn⟩

theorem overflows_orElse : ((p <|> q).run c).Overflows ↔
    (p.run c).Overflows ∨ (p.run c).outcome = .missing ∧ (q.run c).Overflows := by
  unfold Reply.Overflows
  simp only [aborted_orElse, exists_or, exists_and_left]

theorem Declines.not_overflows (h : Declines p c) : ¬ (p.run c).Overflows := by
  simp [Reply.Overflows, h.missing]

theorem Declines.overflows (h : Declines p c) (ho : ((p <|> q).run c).Overflows) : (q.run c).Overflows :=
  ((overflows_orElse.mp ho).resolve_left h.not_overflows).2

/-- A mark behind which too many digits are counted is there. -/
theorem mark_of_overflows {word : String} {g : Unit → Rule β} (h : ((literal word >>= g).run c).Overflows) :
    ∃ k, c.rest = word.toList ++ k := by
  by_cases hm : word.toList <+: c.rest
  · obtain ⟨k, hk⟩ := hm
    exact ⟨k, hk.symm⟩
  · rw [run_no_mark hm] at h
    obtain ⟨n, hn⟩ := h
    cases hn

theorem behind_spaces_of_overflows {word : String} {g : Unit → Rule β}
    (h : ((spaces >>= fun _ => literal word >>= g).run c).Overflows) : ∃ k, c.skip.rest = word.toList ++ k := by
  rw [run_skip] at h
  exact mark_of_overflows h

/-- The rule never counts too many digits. -/
def Quiet (p : Rule α) : Prop := ∀ c, ¬ (p.run c).Overflows

theorem quiet_pure (v : α) : Quiet (pure v) := fun _ => by simp [Reply.Overflows]

theorem quiet_spaces : Quiet spaces := fun _ => by simp [Reply.Overflows, spaces]

theorem quiet_lexeme {wanted : Wanted} {scan : Text → Option (α × Nat)} : Quiet (lexeme wanted scan) := by
  intro c
  cases hs : scan c.rest <;> simp [Reply.Overflows, lexeme, hs]

theorem Quiet.bind (hp : Quiet p) (hf : ∀ v, Quiet (f v)) : Quiet (p >>= f) := by
  intro c h
  rcases overflows_bind.mp h with h | ⟨v, d, -, h⟩
  · exact hp c h
  · exact hf v d h

theorem Quiet.orElse (hp : Quiet p) (hq : Quiet q) : Quiet (p <|> q) := by
  intro c h
  rcases overflows_orElse.mp h with h | ⟨-, h⟩
  · exact hp c h
  · exact hq c h

theorem quiet_closing (word : String) (v : α) : Quiet (do spaces; literal word; pure v) :=
  quiet_spaces.bind fun _ => quiet_lexeme.bind fun _ => quiet_pure v

/-! ## Rules that count no digits behind a miss -/

/-- If the rule counts too many digits, there is a digit ahead behind which it has missed nothing. -/
def Tidy (p : Rule α) (c : Cursor) : Prop :=
  (p.run c).Overflows → ∃ s x k, c.rest = s ++ x :: k ∧ x.isDigit = true ∧ (p.run c).Within (c.offset + s.length)

theorem Quiet.tidy (h : Quiet p) (c : Cursor) : Tidy p c := fun ho => absurd ho (h c)

/-- The digits are ahead where the rule goes on. -/
theorem Tidy.behind {r : Rule β} {s : Text} (h : Tidy r d) (hs : c.Reads s d)
    (hr : (p.run c).Overflows → (r.run d).Overflows)
    (hw : ∀ n, d.nextDigit ≤ n → (r.run d).Within n → (p.run c).Within n) : Tidy p c := by
  intro ho
  obtain ⟨t, x, k, hrest, hx, within⟩ := h (hr ho)
  refine ⟨s ++ t, x, k, by rw [hs.1, hrest, List.append_assoc], hx, ?_⟩
  rw [List.length_append, ← Nat.add_assoc, ← hs.2]
  exact hw _ (Cursor.nextDigit_le hrest hx) within

theorem Tidy.bind (hp : Tidy p c) (ha : Advances p)
    (hf : ∀ v d, (p.run c).outcome = .found v d → ((f v).run d).Overflows →
      (p.run c).Within d.nextDigit ∧ Tidy (f v) d) : Tidy (p >>= f) c := by
  intro ho
  rcases overflows_bind.mp ho with h | ⟨v, d, hd, h⟩
  · obtain ⟨s, x, k, hrest, hx, within⟩ := hp h
    refine ⟨s, x, k, hrest, hx, within_bind within fun v d hd => ?_⟩
    obtain ⟨n, hn⟩ := h
    rw [hd] at hn
    cases hn
  · obtain ⟨within, tidy⟩ := hf v d hd h
    obtain ⟨s, hs⟩ := ha c v d hd
    exact (tidy.behind hs (fun _ => h) fun n hn hw => within_behind hd (within.mono hn) hw) ho

theorem Tidy.bind_quiet (hp : Tidy p c) (hf : ∀ v, Quiet (f v)) : Tidy (p >>= f) c := by
  intro ho
  rcases overflows_bind.mp ho with h | ⟨v, d, -, h⟩
  · obtain ⟨s, x, k, hrest, hx, within⟩ := hp h
    refine ⟨s, x, k, hrest, hx, within_bind within fun v d hd => ?_⟩
    obtain ⟨n, hn⟩ := h
    rw [hd] at hn
    cases hn
  · exact absurd h (hf v d)

theorem Tidy.orElse (hp : Tidy p c) (hq : (p.run c).outcome = .missing → (q.run c).Overflows →
    (p.run c).Within c.nextDigit ∧ Tidy q c) : Tidy (p <|> q) c := by
  intro ho
  rcases overflows_orElse.mp ho with h | ⟨hm, h⟩
  · obtain ⟨s, x, k, hrest, hx, within⟩ := hp h
    refine ⟨s, x, k, hrest, hx, ?_⟩
    obtain ⟨n, hn⟩ := h
    rw [run_orElse_aborted hn]
    exact within
  · obtain ⟨near, tidy⟩ := hq hm h
    exact (tidy.behind c.reads_nil (fun _ => h) fun n hn hw => within_orElse (near.mono hn) hw) ho

theorem Declines.orElse_tidy (h : Declines p c) (hq : Tidy q c) : Tidy (p <|> q) c :=
  Tidy.orElse (fun ho => absurd ho h.not_overflows) fun _ _ => ⟨h.here.mono c.offset_le_nextDigit, hq⟩

theorem Tidy.orElse_quiet (hp : Tidy p c) (hq : Quiet q) : Tidy (p <|> q) c :=
  hp.orElse fun _ h => absurd h (hq c)

/-! ## Spaces and marks -/

variable {g : Unit → Rule β} {word : String} {k : Text}

theorem tidy_skip (h : Tidy (g ()) c.skip) : Tidy (spaces >>= g) c := by
  obtain ⟨a, -, ha⟩ := reads_skip c
  have same := run_skip g c
  exact h.behind ha (by rw [same]; exact id) fun n _ hw => by rwa [same]

theorem tidy_opening (h : ∀ k, c.rest = word.toList ++ k → Tidy (g ()) (c.past word k)) :
    Tidy (literal word >>= fun _ => spaces >>= g) c := by
  by_cases hm : word.toList <+: c.rest
  · obtain ⟨k, hk⟩ := hm
    have same := run_opening (g := g) hk.symm
    have mark : c.Reads word.toList ⟨c.offset + word.toList.length, k⟩ := ⟨hk.symm, rfl⟩
    obtain ⟨a, -, ha⟩ := reads_skip ⟨c.offset + word.toList.length, k⟩
    exact (h k hk.symm).behind (mark.trans ha) (by rw [same]; exact id) fun n _ hw => by rwa [same]
  · exact fun ho => absurd (mark_of_overflows ho) fun ⟨k, hk⟩ => hm ⟨k, hk.symm⟩

theorem tidy_keyword (h : ∀ k, c.rest = word.toList ++ k → Tidy (g ()) (c.past word k)) :
    Tidy (keyword word >>= g) c := by
  have same : keyword word >>= g = literal word >>= fun _ => spaces >>= g := bind_assoc _ _ _
  rw [same]
  exact tidy_opening h

theorem tidy_here {f : Cursor → Rule β} (h : Tidy (f c) c) : Tidy (here >>= f) c := h

theorem tidy_integer (c : Cursor) : Tidy integer c := by
  intro ho
  obtain ⟨w, d, hd, -⟩ := (overflows_bind.mp ho).resolve_left (quiet_lexeme c)
  obtain ⟨s, hs, rfl, hw⟩ := sound_digits c w d hd
  obtain ⟨x, s, rfl⟩ := List.exists_cons_of_ne_nil hw.1
  exact ⟨[], x, s ++ d.rest, hs.1, hw.2 x List.mem_cons_self, within_integer (Nat.le_refl _)⟩

/-- Where fewer than `N` characters are ahead, no digits are counted behind a miss. -/
def TidyBelow (N : Nat) (p : Rule α) : Prop := ∀ c, c.rest.length < N → Tidy p c

/-- An item before a comma has missed nothing behind that comma. -/
theorem tidy_separated {N : Nat} (ha : Advances p) (h : TidyBelow N p)
    (hl : ∀ c v d k, c.rest.length < N → (p.run c).outcome = .found v d → d.skip.rest = ',' :: k →
      (p.run c).Within d.ahead) : TidyBelow N (separated "," p) := by
  intro c hc
  induction hlen : c.rest.length using Nat.strongRecOn generalizing c with
  | ind length ih =>
  rw [separated_eq (by simp) ha]
  refine (h c hc).bind ha fun first e he hover => ?_
  have hel := ha.length_le he
  by_cases hs : ",".toList <+: e.skip.rest
  · obtain ⟨k, hk⟩ := hs
    have comma := run_separator hk.symm
    have quiet : Quiet (succeeds (do spaces; literal ","; spaces)) :=
      ((quiet_spaces.bind fun _ => quiet_lexeme.bind fun _ => quiet_spaces).bind fun _ => quiet_pure true).orElse
        (quiet_pure false)
    refine ⟨(hl c first e k hc he hk.symm).mono e.ahead_le_nextDigit, ?_⟩
    refine Tidy.bind (quiet.tidy _) (sound_separator ",").succeeds.advances fun more d hd _ => ?_
    rw [comma] at hd ⊢
    cases hd
    refine ⟨Reply.within_nil _ _, Tidy.bind_quiet ?_ fun _ => quiet_pure _⟩
    have fewer := Nat.lt_of_lt_of_le (Cursor.past_fewer hk.symm (by simp)) e.skip_fewer
    exact ih _ (by omega) _ (by omega) rfl
  · have none := run_no_separator hs
    rw [run_bind_found (by rw [none])] at hover
    obtain ⟨n, hn⟩ := hover
    cases hn

end Rule

namespace Grammar

open Rule Spelling

variable {N : Nat} {expr atom operand : Rule Expression}

/-! ## Expressions -/

theorem tidy_level {op : BinaryOp} {symbol : String} (hsym : symbol.toList = [op.sign]) (ho : Advances operand)
    (hl : LooksBelow N op.looseness operand) (h : TidyBelow N operand) : TidyBelow N (level op symbol operand) := by
  have hne : symbol.toList ≠ [] := by simp [hsym]
  intro c hc
  induction hlen : c.rest.length using Nat.strongRecOn generalizing c with
  | ind length ih =>
  rw [level_eq hne ho]
  refine (h c hc).bind ho fun left e he hover => ?_
  have hel := ho.length_le he
  obtain ⟨k, hk⟩ := behind_spaces_of_overflows ((overflows_orElse.mp hover).resolve_right fun h => quiet_pure _ _ h.2)
  obtain ⟨a, ha, hrest, -⟩ := e.exists_skip
  have ends : Ends op.looseness e.rest := by
    rw [hrest, hk, hsym]
    exact (ends_sign ha).1
  refine ⟨(hl c left e hc he ends).mono e.ahead_le_nextDigit, Tidy.orElse_quiet ?_ (quiet_pure _)⟩
  refine tidy_skip (tidy_opening fun k hk => Tidy.bind_quiet ?_ fun _ => quiet_pure _)
  have fewer := Nat.lt_of_lt_of_le (Cursor.past_fewer hk hne) e.skip_fewer
  exact ih _ (by omega) _ (by omega) rfl

theorem tidy_operators (ha : Advances atom) (hl : LooksBelow N 0 atom) (h : TidyBelow N atom) :
    TidyBelow N (operators atom) := by
  have l1 : LooksBelow N 1 (level .multiply "*" atom) := looks_level rfl ha hl
  have a1 : Advances (level .multiply "*" atom) := advances_level (by simp) ha
  have l2 : LooksBelow N 2 (level .divide "/" (level .multiply "*" atom)) := looks_level rfl a1 l1
  have a2 : Advances (level .divide "/" (level .multiply "*" atom)) := advances_level (by simp) a1
  have l3 : LooksBelow N 3 (level .add "+" (level .divide "/" (level .multiply "*" atom))) := looks_level rfl a2 l2
  have t1 : TidyBelow N (level .multiply "*" atom) := tidy_level rfl ha hl h
  have t2 : TidyBelow N (level .divide "/" (level .multiply "*" atom)) := tidy_level rfl a1 l1 t1
  have t3 : TidyBelow N (level .add "+" (level .divide "/" (level .multiply "*" atom))) := tidy_level rfl a2 l2 t2
  exact tidy_level rfl (advances_level (by simp) a2) l3 t3

theorem tidy_parenthesised (h : TidyBelow N expr) : TidyBelow (N + 1) (parenthesised expr) := by
  intro c hc
  refine tidy_opening fun k hk => Tidy.bind_quiet (h _ ?_) fun inner => quiet_closing _ inner
  exact Nat.lt_of_lt_of_le (Cursor.past_fewer hk (by simp)) (Nat.le_of_lt_succ hc)

theorem tidy_functionCall (h : TidyBelow N expr) : TidyBelow (N + 1) (functionCall expr) := by
  intro c hc
  refine tidy_here (Tidy.bind (quiet_lexeme.tidy c) sound_functionName.advances fun name e he _ => ⟨?_, ?_⟩)
  · refine (within_lexeme (Nat.le_refl _)).mono ?_
    obtain ⟨s, hs, -⟩ := sound_functionName c name e he
    have := e.offset_le_nextDigit
    rw [hs.2] at this
    omega
  · cases builtIn? name with
    | none => exact fun ho => by simp [abort, Reply.Overflows] at ho
    | some function =>
      have shorter := sound_functionName.advances.length_le he
      exact (tidy_parenthesised h e (by omega)).bind_quiet fun _ => quiet_pure _

theorem tidy_negation (h : TidyBelow N atom) : TidyBelow (N + 1) (negation atom) := by
  intro c hc
  refine tidy_opening fun k hk => Tidy.bind_quiet (h _ ?_) fun _ => quiet_pure _
  exact Nat.lt_of_lt_of_le (Cursor.past_fewer hk (by simp)) (Nat.le_of_lt_succ hc)

theorem tidy_arrayReferenceOf (ha : Advances expr) (hl : LooksBelow N 4 expr) (h : TidyBelow N expr) :
    TidyBelow (N + 1) (arrayReferenceOf expr) := by
  intro c hc
  refine Tidy.bind (quiet_lexeme.tidy c) advances_letter fun name e he _ => ⟨?_, ?_⟩
  · refine (within_lexeme (Nat.le_refl _)).mono ?_
    obtain ⟨s, hs, -⟩ := sound_letter c name e he
    have := e.offset_le_nextDigit
    rw [hs.2] at this
    omega
  have shorter := advances_letter.length_le he
  refine tidy_opening fun k hk => ?_
  have fewer := Nat.lt_of_lt_of_le (Cursor.past_fewer hk (by simp)) (Nat.le_trans shorter (Nat.le_of_lt_succ hc))
  refine Tidy.bind_quiet (Tidy.orElse_quiet ?_ (quiet_pure _)) fun _ => quiet_closing _ _
  refine tidy_separated ha h (fun c v d k hc hd hk => hl c v d hc hd ?_) _ fewer
  obtain ⟨a, hspaces, hrest, -⟩ := d.exists_skip
  rw [hrest, hk]
  exact (ends_mark (.inr rfl) hspaces).1

/-- Where a letter is ahead, digits are counted in a call or in the indices of an element. -/
theorem tidy_named (hl : LooksBelow N 4 expression) (h : TidyBelow N expression) {c : Cursor} {x : Char} {t : Text}
    (hc : c.rest = x :: t) (hx : x.isAlpha = true) (hlen : c.rest.length < N + 1) : Tidy (atomOf expression) c := by
  have noDigit : Stops Char.isDigit c.rest := by simpa [hc] using isDigit_of_isAlpha hx
  have noMark : ∀ y : Char, y.isAlpha = false → c.rest.head? ≠ some y := by
    rintro y hy he
    obtain rfl : x = y := by simpa [hc] using he
    rw [hx] at hy
    cases hy
  have parenthesis : Declines (parenthesised expression) c :=
    (declines_literal_char rfl (noMark '(' (by decide))).bind
  have minus : Declines (negation (atomOf expression)) c := (declines_literal_char rfl (noMark '-' (by decide))).bind
  have fraction : Declines real c := declines_lexeme (skips_real noDigit)
  have digits : Declines integer c := declines_integer noDigit
  have element := tidy_arrayReferenceOf advances_expression hl h c hlen
  have name : Quiet ((do let name ← letter; pure (Expression.scalar name)) <|> fail) := by
    rw [orElse_fail]
    exact quiet_lexeme.bind fun _ => quiet_pure _
  rw [atomOf_eq advances_expression]
  refine parenthesis.orElse_tidy ((tidy_functionCall h c hlen).orElse fun hm hover => ⟨?_, ?_⟩)
  · -- An element has a parenthesis behind its letter, so it does not begin with the name of a function.
    refine (within_functionCall hm fun function hp => ?_).mono c.offset_le_nextDigit
    have indexed := digits.bind.overflows (fraction.bind.overflows (minus.overflows hover))
    have := (overflows_orElse.mp indexed).resolve_right fun h => name c h.2
    have := (overflows_bind.mp this).resolve_right fun ⟨_, d, _, h⟩ => quiet_pure _ d h
    obtain ⟨_, e, he, hover⟩ := (overflows_bind.mp this).resolve_left (quiet_lexeme c)
    obtain ⟨k, hk⟩ := mark_of_overflows hover
    obtain ⟨s, hs, rfl, -⟩ := sound_letter c _ e he
    rw [hs.1, hk] at hp
    obtain ⟨k', hk'⟩ := hp
    cases function <;> cases hk'
  · exact minus.orElse_tidy (fraction.bind.orElse_tidy (digits.bind.orElse_tidy
      ((element.bind_quiet fun _ => quiet_pure _).orElse_quiet name)))

theorem tidy_atomOf (hl : LooksBelow N 4 expression) (h : TidyBelow N expression)
    (ha : TidyBelow N (atomOf expression)) : TidyBelow (N + 1) (atomOf expression) := by
  intro c hc
  by_cases hletter : Stops Char.isAlpha c.rest
  · have call : Declines (functionCall expression) c := declines_functionCall (hletter.mono fun x => isAlpha_of_isUpper)
    have name : Declines letter c := declines_lexeme (skips_letter hletter)
    have element : Declines (arrayReferenceOf expression) c := name.bind
    have real : Tidy (do let x ← real; pure (Expression.real x)) c := (quiet_lexeme.bind fun _ => quiet_pure _).tidy c
    rw [atomOf_eq advances_expression]
    by_cases hp : c.rest.head? = some '('
    · have minus : Declines (negation (atomOf expression)) c := (declines_literal_char (x := '-') rfl (by simp [hp])).bind
      have operand := declines_operand expression (c := c) (by simp [Stops, hp]) hletter
      have others := call.orElse (minus.orElse operand)
      exact (tidy_parenthesised h c hc).orElse fun _ hover => absurd hover others.not_overflows
    have parenthesis : Declines (parenthesised expression) c := (declines_literal_char rfl hp).bind
    refine parenthesis.orElse_tidy (call.orElse_tidy ?_)
    by_cases hn : c.rest.head? = some '-'
    · have operand := declines_operand expression (c := c) (by simp [Stops, hn]) hletter
      exact (tidy_negation ha c hc).orElse fun _ hover => absurd hover operand.not_overflows
    have minus : Declines (negation (atomOf expression)) c := (declines_literal_char rfl hn).bind
    refine minus.orElse_tidy (real.orElse fun _ _ => ⟨?_, Tidy.orElse ?_ fun _ hover => ?_⟩)
    · exact (within_map (within_lexeme (Nat.le_refl _))).mono c.offset_le_nextDigit
    · exact (tidy_integer c).bind_quiet fun _ => quiet_pure _
    · exact absurd hover (element.bind.orElse (name.bind.orElse declines_fail)).not_overflows
  · obtain ⟨x, t, hxt, hx⟩ : ∃ x t, c.rest = x :: t ∧ x.isAlpha = true := by
      cases ht : c.rest with
      | nil => exact absurd (by rw [ht]; exact stops_nil _) hletter
      | cons x t => exact ⟨x, t, rfl, by simpa [ht] using hletter⟩
    exact tidy_named hl h hxt hx hc

theorem tidy_expression (c : Cursor) : Tidy expression c := by
  have inner : ∀ N, TidyBelow N (atomOf expression) → TidyBelow N expression := by
    intro N ha
    rw [expression_eq]
    exact tidy_operators (advances_atomOf advances_expression) (looks_atom N) ha
  have atoms : ∀ N, TidyBelow N (atomOf expression) := by
    intro N
    induction N with
    | zero => exact fun c hc => absurd hc (Nat.not_lt_zero _)
    | succ N ih => exact tidy_atomOf (fun c v d _ => looks_expression) (inner N ih) ih
  exact inner _ (atoms (c.rest.length + 1)) c (Nat.lt_succ_self _)

theorem tidy_arrayReference (c : Cursor) : Tidy arrayReference c :=
  tidy_arrayReferenceOf advances_expression (N := c.rest.length) (fun _ _ _ _ => looks_expression)
    (fun c _ => tidy_expression c) c (Nat.lt_succ_self _)

/-! ## Conditions -/

theorem quiet_comparisonOperator : Quiet comparisonOperator := by
  have sign (word : String) (op : Comparison) : Quiet (do literal word; pure op) :=
    quiet_lexeme.bind fun _ => quiet_pure op
  exact (sign _ _).orElse ((sign _ _).orElse ((sign _ _).orElse ((sign _ _).orElse ((sign _ _).orElse
    ((sign _ _).orElse fun c => declines_fail.not_overflows)))))

theorem tidy_comparison (c : Cursor) : Tidy comparison c := by
  refine (tidy_expression c).bind advances_expression fun l e he hover => ?_
  have found := hover
  rw [run_skip] at found
  obtain ⟨op, g, hg, -⟩ := (overflows_bind.mp found).resolve_left (quiet_comparisonOperator _)
  obtain ⟨s, hs, rfl⟩ := sound_comparisonOperator _ _ _ hg
  obtain ⟨x, u, hop, hx, hclings, hsign, -⟩ := comparison_begins op
  have ends : Ends 4 e.rest := by
    refine ends_mark_of (x := x) (k := u ++ g.rest) ?_ hx hclings hsign
    rw [hs.1, hop]
    rfl
  refine ⟨(looks_expression he ends).mono e.ahead_le_nextDigit, tidy_skip ?_⟩
  refine Tidy.bind (quiet_comparisonOperator.tidy _) sound_comparisonOperator.advances fun op g hg _ => ⟨?_, ?_⟩
  · refine (within_comparisonOperator (Nat.le_refl _)).mono ?_
    obtain ⟨s, hs, -⟩ := sound_comparisonOperator _ _ _ hg
    have := g.offset_le_nextDigit
    rw [hs.2] at this
    omega
  · exact tidy_skip ((tidy_expression _).bind_quiet fun _ => quiet_pure _)

theorem tidy_joined {op : Connective} {word : String} {left : Condition} {right : Rule Condition} {c : Cursor}
    (h : ∀ k, c.skip.rest = word.toList ++ k → Tidy right (c.skip.past word k)) : Tidy (joined op word left right) c := by
  refine tidy_skip (tidy_opening fun k hk => ?_)
  exact (h k hk).bind_quiet fun _ => quiet_pure _

theorem tidy_conjunction (c : Cursor) : Tidy conjunction c := by
  induction hlen : c.rest.length using Nat.strongRecOn generalizing c with
  | ind length ih =>
  rw [conjunction_eq]
  refine (tidy_comparison c).bind advances_comparison fun left e he hover => ?_
  have shorter := advances_comparison.length_le he
  obtain ⟨k, hk⟩ := behind_spaces_of_overflows ((overflows_orElse.mp hover).resolve_right fun h => quiet_pure _ _ h.2)
  refine ⟨(looks_comparison he (ends_before .and hk)).mono e.ahead_le_nextDigit, Tidy.orElse_quiet ?_ (quiet_pure _)⟩
  refine tidy_joined fun k hk => ih _ ?_ _ rfl
  have := Nat.lt_of_lt_of_le (Cursor.past_fewer hk (by simp)) e.skip_fewer
  omega

theorem tidy_condition (c : Cursor) : Tidy condition c := by
  induction hlen : c.rest.length using Nat.strongRecOn generalizing c with
  | ind length ih =>
  rw [condition_eq]
  refine (tidy_comparison c).bind advances_comparison fun left e he hover => ?_
  have shorter := advances_comparison.length_le he
  have other (h : ((joined .or "OR" left condition <|> pure left).run e).Overflows) :
      ∃ k, e.skip.rest = Connective.or.keyword.toList ++ k :=
    behind_spaces_of_overflows ((overflows_orElse.mp h).resolve_right fun h => quiet_pure _ _ h.2)
  refine ⟨Reply.Within.mono ?_ e.ahead_le_nextDigit, Tidy.orElse ?_ fun _ h => ⟨?_, Tidy.orElse_quiet ?_ (quiet_pure _)⟩⟩
  · rcases overflows_orElse.mp hover with h | ⟨-, h⟩
    · obtain ⟨k, hk⟩ := behind_spaces_of_overflows h
      exact looks_comparison he (ends_before .and hk)
    · obtain ⟨k, hk⟩ := other h
      exact looks_comparison he (ends_before .or hk)
  · exact tidy_joined fun k _ => tidy_conjunction _
  · -- The OR is there, so the AND is missed in its place.
    obtain ⟨k, hk⟩ := other h
    exact (within_unmarked (not_and_before_or hk)).mono e.ahead_le_nextDigit
  · refine tidy_joined fun k hk => ih _ ?_ _ rfl
    have := Nat.lt_of_lt_of_le (Cursor.past_fewer hk (by simp)) e.skip_fewer
    omega

/-! ## Strings -/

theorem tidy_tab (c : Cursor) : Tidy tab c := by
  unfold tab
  exact tidy_opening fun k _ => (tidy_integer _).bind_quiet fun n => quiet_closing _ _

theorem tidy_fragment (c : Cursor) : Tidy fragment c := by
  rw [fragment_eq]
  refine Tidy.orElse ((quiet_lexeme.bind fun _ => quiet_pure _).tidy c) fun _ _ => ⟨?_, Tidy.orElse (tidy_tab c) ?_⟩
  · exact (within_map (within_lexeme (Nat.le_refl _))).mono c.offset_le_nextDigit
  intro _ hover
  refine ⟨(within_no_tab fun h => ?_).mono c.offset_le_nextDigit, ?_⟩
  · obtain ⟨n, hn⟩ := (overflows_bind.mp hover).resolve_right fun ⟨_, d, _, h⟩ => quiet_pure _ d h
    rw [expression_tab h] at hn
    cases hn
  · exact (tidy_expression c).bind_quiet fun _ => quiet_pure _

theorem tidy_stringBody (c : Cursor) : Tidy stringBody c := by
  induction hlen : c.rest.length using Nat.strongRecOn generalizing c with
  | ind length ih =>
  rw [stringBody_eq_behind]
  refine (tidy_fragment c).bind advances_fragment fun left e he hover => ?_
  have shorter := advances_fragment.length_le he
  have behind (word : String) (join : StringExpression → StringExpression) (hne : word.toList ≠ []) :
      Tidy (bodyBehind word join) e := by
    refine tidy_opening fun k hk => Tidy.bind_quiet (ih _ ?_ _ rfl) fun _ => quiet_pure _
    have := Cursor.past_fewer hk hne
    omega
  have other (h : ((bodyBehind "," (.concatTab left) <|> pure left).run e).Overflows) : ∃ k, e.rest = ",".toList ++ k :=
    mark_of_overflows ((overflows_orElse.mp h).resolve_right fun h => quiet_pure _ _ h.2)
  refine ⟨Reply.Within.mono ?_ e.ahead_le_nextDigit, Tidy.orElse (behind ";" _ (by simp)) fun _ h => ⟨?_, ?_⟩⟩
  · rcases overflows_orElse.mp hover with h | ⟨-, h⟩
    · obtain ⟨k, hk⟩ := mark_of_overflows h
      exact looks_fragment he (ends_separated (.inl rfl) hk)
    · obtain ⟨k, hk⟩ := other h
      exact looks_fragment he (ends_separated (.inr rfl) hk)
  · obtain ⟨k, hk⟩ := other h
    have noSemicolon : Declines (literal ";") e := declines_literal_char (x := ';') rfl (by simp [hk])
    exact (noSemicolon.bind (f := fun _ => do spaces; let right ← stringBody; pure _)).here.mono e.offset_le_nextDigit
  · exact (behind "," _ (by simp)).orElse_quiet (quiet_pure _)

theorem tidy_stringExpression (c : Cursor) : Tidy stringExpression c := by
  refine (tidy_stringBody c).bind_quiet fun body => ?_
  refine (quiet_lexeme.bind fun _ => quiet_pure _).orElse ((quiet_lexeme.bind fun _ => quiet_pure _).orElse ?_)
  exact quiet_pure body

/-! ## Statements -/

theorem tidy_target (c : Cursor) : Tidy target c := by
  rw [target_eq]
  refine ((tidy_arrayReference c).bind_quiet fun _ => quiet_pure _).orElse_quiet ?_
  exact quiet_lexeme.bind fun _ => quiet_pure _

theorem quiet_succeeds {p : Rule Unit} (h : Quiet p) : Quiet (succeeds p) :=
  (h.bind fun _ => quiet_pure true).orElse (quiet_pure false)

theorem quiet_keyword (word : String) : Quiet (keyword word) := quiet_lexeme.bind fun _ => quiet_spaces

/-- Behind the name of a variable, digits are counted by what comes next. -/
theorem tidy_letter {f : Char → Rule β} {c : Cursor}
    (h : ∀ name d, (letter.run c).outcome = .found name d → Tidy (f name) d) : Tidy (letter >>= f) c := by
  refine Tidy.bind (quiet_lexeme.tidy c) advances_letter fun name d hd _ => ⟨(within_lexeme ?_), h name d hd⟩
  obtain ⟨s, hs, -⟩ := sound_letter c name d hd
  exact Nat.le_trans hs.offset_le d.offset_le_nextDigit

theorem tidy_assignStatement (c : Cursor) : Tidy assignStatement c := by
  have advances : Advances (succeeds (keyword "LET")) :=
    ((advances_keyword _).bind fun _ => advances_pure true).orElse (advances_pure false)
  refine Tidy.bind ((quiet_succeeds (quiet_keyword "LET")).tidy c) advances fun _ e he _ => ⟨within_keyword ?_, ?_⟩
  · obtain ⟨s, hs⟩ := advances c _ e he
    exact Nat.le_trans hs.offset_le e.offset_le_nextDigit
  refine (tidy_target e).bind advances_target fun t d hd hover => ⟨?_, ?_⟩
  · obtain ⟨k, hk⟩ := behind_spaces_of_overflows hover
    obtain ⟨a, ha, hrest, -⟩ := d.exists_skip
    have none : Stops (fun x => decide (x = '(')) d.rest := by
      rw [hrest, hk]
      exact stops_spaces ha (by decide) (by decide)
    exact (looks_target hd (none.head_ne (by simp))).mono d.offset_le_nextDigit
  · exact tidy_skip (tidy_opening fun k _ => (tidy_expression _).bind_quiet fun _ => quiet_pure _)

theorem tidy_ifStatement (c : Cursor) : Tidy ifStatement c := by
  refine tidy_keyword fun k _ => (tidy_condition _).bind advances_condition fun test d hd hover => ?_
  rw [keyword_bind] at hover ⊢
  obtain ⟨k, hk⟩ := behind_spaces_of_overflows hover
  obtain ⟨a, ha, hrest, -⟩ := d.exists_skip
  have halts : Halts d.rest := by
    rw [hrest, hk]
    exact halts_then ha k
  refine ⟨(looks_condition hd halts).mono d.ahead_le_nextDigit, tidy_skip (tidy_opening fun k _ => ?_)⟩
  exact (tidy_integer _).bind_quiet fun _ => quiet_pure _

theorem tidy_stepClause (c : Cursor) : Tidy stepClause c := by
  have quiet : Quiet (succeeds (do spaces; keyword "STEP")) := quiet_succeeds (quiet_spaces.bind fun _ => quiet_keyword _)
  by_cases h : "STEP".toList <+: c.skip.rest
  · obtain ⟨k, hk⟩ := h
    have step : (succeeds (do spaces; keyword "STEP")).run c = _ := run_separator hk.symm
    refine Tidy.bind (quiet.tidy c) (sound_separator "STEP").succeeds.advances fun given d hd _ => ?_
    rw [step] at hd ⊢
    cases hd
    exact ⟨Reply.within_nil _ _, tidy_expression _⟩
  · have none : (succeeds (do spaces; keyword "STEP")).run c = _ := run_no_separator h
    intro hover
    unfold stepClause stepClauseOf at hover
    rw [run_bind_found (by rw [none])] at hover
    obtain ⟨n, hn⟩ := hover
    cases hn

/-- Digits are counted in the step of a loop only behind its keyword. -/
theorem step_of_overflows {c : Cursor} (h : (stepClause.run c).Overflows) : ∃ k, c.skip.rest = "STEP".toList ++ k := by
  by_cases hs : "STEP".toList <+: c.skip.rest
  · obtain ⟨k, hk⟩ := hs
    exact ⟨k, hk.symm⟩
  · have none : (succeeds (do spaces; keyword "STEP")).run c = _ := run_no_separator hs
    unfold stepClause stepClauseOf at h
    rw [run_bind_found (by rw [none])] at h
    obtain ⟨n, hn⟩ := h
    cases hn

theorem tidy_forStatement (c : Cursor) : Tidy forStatement c := by
  refine tidy_keyword fun k _ => tidy_letter fun counter d _ => tidy_skip (tidy_opening fun k _ => ?_)
  refine (tidy_expression _).bind advances_expression fun start d hd hover => ?_
  rw [keyword_bind] at hover ⊢
  obtain ⟨k, hk⟩ := behind_spaces_of_overflows hover
  have ends := ends_mark_of (x := 'T') hk (by decide) (by decide) (by decide)
  refine ⟨(looks_expression hd ends).mono d.ahead_le_nextDigit, tidy_skip (tidy_opening fun k _ => ?_)⟩
  refine (tidy_expression _).bind advances_expression fun stop e he hover => ⟨?_, ?_⟩
  · obtain ⟨k, hk⟩ := step_of_overflows ((overflows_bind.mp hover).resolve_right fun ⟨_, d, _, h⟩ => quiet_pure _ d h)
    have ends := ends_mark_of (x := 'S') hk (by decide) (by decide) (by decide)
    exact (looks_expression he ends).mono e.ahead_le_nextDigit
  · exact (tidy_stepClause e).bind_quiet fun _ => quiet_pure _

theorem tidy_inputStatement (c : Cursor) : Tidy inputStatement c := by
  refine tidy_keyword fun k _ => tidy_here ((tidy_stringExpression _).bind_quiet fun operand => ?_)
  cases inputOperand? operand with
  | some read => exact quiet_pure _
  | none => exact fun d => by simp [want, Reply.Overflows]

/-- Items that miss at most their beginning. -/
theorem tidy_items {item : Rule α} (ha : Advances item) (hi : ∀ c, Tidy item c)
    (hl : ∀ c v d, (item.run c).outcome = .found v d → (item.run c).Within d.offset) (c : Cursor) :
    Tidy (separated "," item) c :=
  tidy_separated ha (fun c _ => hi c) (fun c v d _ _ hd _ => (hl c v d hd).mono d.offset_le_ahead) c (Nat.lt_succ_self _)

theorem tidy_onGotoStatement (c : Cursor) : Tidy onGotoStatement c := by
  refine tidy_keyword fun k _ => tidy_letter fun selector d _ => tidy_skip (tidy_keyword fun k _ => ?_)
  refine Tidy.bind_quiet (tidy_items advances_integer tidy_integer (fun c n d hd => ?_) _) fun _ => quiet_pure _
  obtain ⟨s, hs⟩ := advances_integer c n d hd
  exact within_integer hs.offset_le

theorem tidy_statementRules (c : Cursor) : ∀ p ∈ statementRules, Tidy p c := by
  intro p hp
  have number (word : String) (f : Int → Statement) : Tidy (do keyword word; let n ← integer; pure (f n)) c :=
    tidy_keyword fun k _ => (tidy_integer _).bind_quiet fun _ => quiet_pure _
  simp only [statementRules, List.mem_cons, List.not_mem_nil, or_false] at hp
  rcases hp with rfl | rfl | rfl | rfl | rfl | rfl | rfl | rfl | rfl | rfl | rfl | rfl | rfl
  · have rest : Quiet restOfLine := fun c => by simp [restOfLine, Reply.Overflows]
    exact (quiet_lexeme.bind fun _ => rest.bind fun _ => quiet_pure _).tidy c
  · refine tidy_keyword fun k _ => Tidy.bind_quiet ?_ fun _ => quiet_pure _
    exact (tidy_stringExpression _).orElse_quiet (quiet_pure _)
  · exact tidy_assignStatement c
  · exact (quiet_lexeme.bind fun _ => quiet_pure _).tidy c
  · exact number _ _
  · exact number _ _
  · exact tidy_ifStatement c
  · exact tidy_forStatement c
  · refine tidy_keyword fun k _ => Tidy.bind_quiet ?_ fun _ => quiet_pure _
    refine tidy_items advances_letter quiet_lexeme.tidy (fun c name d hd => ?_) _
    obtain ⟨s, hs⟩ := advances_letter c name d hd
    exact within_lexeme hs.offset_le
  · exact tidy_inputStatement c
  · exact (quiet_lexeme.bind fun _ => quiet_pure _).tidy c
  · refine tidy_keyword fun k _ => Tidy.bind_quiet ?_ fun _ => quiet_pure _
    exact tidy_items advances_arrayReference tidy_arrayReference (fun c r d => looks_arrayReference) _
  · exact tidy_onGotoStatement c

/-! ## Lines -/

theorem overflows_firstOf {ps : List (Rule α)} {c : Cursor} (h : ((firstOf ps).run c).Overflows) :
    ∃ before p after, ps = before ++ p :: after ∧ (p.run c).Overflows := by
  induction ps with
  | nil => exact absurd h declines_fail.not_overflows
  | cons p ps ih =>
    rcases overflows_orElse.mp h with h | ⟨-, h⟩
    · exact ⟨[], p, ps, rfl, h⟩
    · obtain ⟨before, q, after, rfl, hq⟩ := ih h
      exact ⟨p :: before, q, after, rfl, hq⟩

theorem Tidy.firstOf {ps : List (Rule α)} {c : Cursor} (ht : ∀ p ∈ ps, Tidy p c)
    (hw : ∀ before p after, ps = before ++ p :: after → (p.run c).Overflows →
      ∀ q ∈ before, (q.run c).Within c.nextDigit) : Tidy (firstOf ps) c := by
  induction ps with
  | nil => exact fun h => absurd h declines_fail.not_overflows
  | cons p ps ih =>
    refine Tidy.orElse (ht p List.mem_cons_self) fun _ hover => ⟨?_, ih ?_ ?_⟩
    · obtain ⟨before, q, after, hps, hq⟩ := overflows_firstOf hover
      exact hw (p :: before) q after (by rw [hps]; rfl) hq p List.mem_cons_self
    · exact fun q hq => ht q (List.mem_cons_of_mem _ hq)
    · intro before q after hps hq r hr
      exact hw (p :: before) q after (by rw [hps]; rfl) hq r (List.mem_cons_of_mem _ hr)

variable {K : String} {p : Rule Statement} {c : Cursor}

/-- Digits are counted behind the keyword of a statement, or in an assignment that has none. -/
theorem begun_of_overflows (h : (K, p) ∈ keywordRules) (ho : (p.run c).Overflows) :
    K.toList <+: c.rest ∨ K = "LET" ∧ ∃ x t, c.rest = x :: t ∧ Stops Char.isUpper t := by
  by_cases hn : K.toList <+: c.rest
  · exact .inl hn
  right
  by_cases hl : K = "LET"
  · subst hl
    obtain rfl : p = assignStatement := by simpa [keywordRules] using h
    refine ⟨rfl, ?_⟩
    obtain ⟨s, ch, k, hrest, -⟩ := tidy_assignStatement c ho
    cases ht : c.rest with
    | nil => simp [ht] at hrest
    | cons x t =>
      refine ⟨x, t, rfl, fun y hy => ?_⟩
      cases hu : y.isUpper with
      | false => rfl
      | true =>
        obtain ⟨t, rfl⟩ := List.head?_eq_some_iff.mp hy
        have none : "LET".toList.isPrefixOf (x :: y :: t) = false := by
          rw [ht] at hn
          simpa [← List.isPrefixOf_iff_prefix] using hn
        have missing := (skips_assignStatement (R := False) hu none c.offset).resolve_right fun h => h.1
        rw [← ht] at missing
        obtain ⟨n, hover⟩ := ho
        rw [missing] at hover
        cases hover
  · exact absurd ho (declines_unbegun h hl hn).not_overflows

theorem tidy_single (c : Cursor) : Tidy (firstOf statementRules) c := by
  refine Tidy.firstOf (tidy_statementRules c) fun before p after hps hover q hq => ?_
  obtain ⟨K, K', first, earlier, differ⟩ := earlier_apart hps hq
  -- The keyword of the earlier rule is not there, as another one is, or none.
  have absent : ¬ K'.toList <+: c.rest := by
    rw [← List.isPrefixOf_iff_prefix, Bool.not_eq_true]
    rcases begun_of_overflows first hover with ⟨r, hr⟩ | ⟨-, x, t, ht, hu⟩
    · rw [← hr]
      exact isPrefixOf_of_apart differ r
    · rw [ht]
      exact no_keyword earlier hu
  by_cases hl : K' = "LET"
  · subst hl
    obtain rfl : q = assignStatement := by simpa [keywordRules] using earlier
    rcases begun_of_overflows first hover with ⟨r, hr⟩ | ⟨rfl, -⟩
    · obtain ⟨x, y, w, hK, hx, hy⟩ := keyword_capitals first
      rw [hK] at hr
      refine (within_assignStatement hr.symm hx hy absent).mono ?_
      have count : (c.rest.takeWhile fun d => !d.isDigit) = x :: ((y :: (w ++ r)).takeWhile fun d => !d.isDigit) := by
        rw [← hr]
        simp [isDigit_of_isUpper hx]
      unfold Cursor.nextDigit
      rw [count, List.length_cons]
      omega
    · cases differ
  · exact (declines_unbegun earlier hl absent).here.mono c.offset_le_nextDigit

/-- Where a line counts too many digits, it has missed nothing behind them. -/
theorem tidy_statement (c : Cursor) : Tidy statement c := by
  induction hlen : c.rest.length using Nat.strongRecOn generalizing c with
  | ind length ih =>
  rw [statement_eq_another]
  refine (tidy_single c).bind (.firstOf advances_statementRules) fun first e he hover => ?_
  have shorter := (Advances.firstOf advances_statementRules).length_le he
  obtain ⟨u, hu⟩ := behind_spaces_of_overflows ((overflows_orElse.mp hover).resolve_right fun h => quiet_pure _ _ h.2)
  refine ⟨(looks_single he hu).mono e.ahead_le_nextDigit, Tidy.orElse_quiet ?_ (quiet_pure _)⟩
  refine tidy_skip (tidy_opening fun k hk => Tidy.bind_quiet (ih _ ?_ _ rfl) fun _ => quiet_pure _)
  have := Nat.lt_of_lt_of_le (Cursor.past_fewer hk (by simp)) e.skip_fewer
  omega

end Grammar

end LineBasic
