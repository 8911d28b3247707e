import LineBasic.Proofs.Composed
import LineBasic.Proofs.Recognition

/-
  LineBasic.Proofs.Lookahead — how far the rules for expressions and comparisons look beyond what they find.

  What is missed on the way to an expression is missed in it, or where the next character behind it is that is no space
  (`looks_expression`), if what comes behind does not go on with the expression. An alternative that was tried in vain
  has missed no more than its first character, or it ended in a name with a parenthesis behind, or in the letter of a
  function, and then the expression would go on. The same holds of comparisons (`looks_comparison`).
-/

namespace LineBasic

variable {α β : Type}

/-- The offset of the next character that is no space. -/
def Cursor.ahead (c : Cursor) : Nat := c.offset + (c.rest.takeWhile isSpace).length

/-- The cursor at the next character that is no space. -/
def Cursor.skip (c : Cursor) : Cursor := ⟨c.ahead, c.rest.dropWhile isSpace⟩

/-- The cursor behind the characters `word` and spaces, if `k` is behind `word`. -/
def Cursor.past (c : Cursor) (word : String) (k : Text) : Cursor := Cursor.skip ⟨c.offset + word.toList.length, k⟩

/-- Nothing is missed behind offset `n`. -/
def Reply.Within (n : Nat) (r : Reply α) : Prop := ∀ m ∈ r.misses, m.offset ≤ n

theorem Cursor.offset_le_ahead (c : Cursor) : c.offset ≤ c.ahead := Nat.le_add_right _ _

theorem Cursor.Reads.ahead_le {c d : Cursor} {s : Text} (h : c.Reads s d) : c.ahead ≤ d.ahead := by
  obtain ⟨a, k, rfl, ha, hk⟩ := exists_run isSpace s
  unfold Cursor.ahead
  rw [h.1, h.2]
  cases k with
  | nil =>
    rw [List.append_nil, List.takeWhile_append_of_pos ha, List.length_append]
    omega
  | cons x k =>
    have stop : ((a ++ x :: k) ++ d.rest).takeWhile isSpace = a := by
      rw [List.append_assoc]
      exact takeWhile_run ha (by simpa using hk)
    rw [stop, List.length_append]
    omega

theorem Cursor.exists_skip (c : Cursor) : ∃ a, Spaces a ∧ c.rest = a ++ c.skip.rest ∧ Stops isSpace c.skip.rest := by
  obtain ⟨a, k, hc, ha, hk⟩ := exists_run isSpace c.rest
  have cut : c.skip.rest = k := by
    show c.rest.dropWhile isSpace = k
    rw [hc]
    exact dropWhile_run ha hk
  rw [cut]
  exact ⟨a, fun x hx => by simpa [isSpace] using ha x hx, hc, hk⟩

theorem Cursor.offset_le_past (c : Cursor) (word : String) (k : Text) : c.offset ≤ (c.past word k).offset := calc
  c.offset ≤ c.offset + word.toList.length := Nat.le_add_right _ _
  _ ≤ (c.past word k).offset := Cursor.offset_le_ahead ⟨c.offset + word.toList.length, k⟩

theorem Cursor.past_fewer {c : Cursor} {word : String} {k : Text} (h : c.rest = word.toList ++ k)
    (hne : word.toList ≠ []) : (c.past word k).rest.length < c.rest.length := by
  have drop : (k.dropWhile isSpace).length ≤ k.length := (List.dropWhile_suffix isSpace).length_le
  have hpos := List.length_pos_iff.mpr hne
  have := congrArg List.length h
  rw [List.length_append] at this
  show (k.dropWhile isSpace).length < c.rest.length
  omega

theorem Cursor.past_stops (c : Cursor) (word : String) (k : Text) : Stops isSpace (c.past word k).rest := by
  obtain ⟨-, -, -, stops⟩ := Cursor.exists_skip ⟨c.offset + word.toList.length, k⟩
  exact stops

theorem Cursor.skip_fewer (c : Cursor) : c.skip.rest.length ≤ c.rest.length :=
  (List.dropWhile_suffix isSpace).length_le

theorem Reply.within_nil (n : Nat) (o : Outcome α) : Reply.Within n ⟨o, []⟩ := by simp [Reply.Within]

theorem Reply.Within.mono {m n : Nat} {r : Reply α} (h : r.Within m) (hmn : m ≤ n) : r.Within n :=
  fun miss hm => Nat.le_trans (h miss hm) hmn

theorem Reply.Within.after {n : Nat} {r : Reply α} {misses : List Miss} (h : r.Within n)
    (hm : ∀ m ∈ misses, m.offset ≤ n) : (r.after misses).Within n := by
  intro m hmem
  rcases List.mem_append.mp hmem with hmem | hmem
  · exact hm m hmem
  · exact h m hmem

namespace Rule

variable {p q : Rule α} {f : α → Rule β} {c d : Cursor} {v : α} {n : Nat}

/-! ## Where a reply misses something -/

theorem within_pure (v : α) : ((pure v : Rule α).run c).Within n := Reply.within_nil n _

theorem within_bind (hp : (p.run c).Within n)
    (hf : ∀ v d, (p.run c).outcome = .found v d → ((f v).run d).Within n) : ((p >>= f).run c).Within n := by
  cases h : (p.run c).outcome with
  | found v d =>
    rw [run_bind_found h]
    exact (hf v d h).after hp
  | missing =>
    rw [run_bind_missing h]
    exact hp
  | aborted cause =>
    rw [run_bind_aborted h]
    exact hp

theorem within_behind (h : (p.run c).outcome = .found v d) (hp : (p.run c).Within n) (hf : ((f v).run d).Within n) :
    ((p >>= f).run c).Within n := by
  refine within_bind hp fun w e he => ?_
  cases h.symm.trans he
  exact hf

theorem within_map {g : α → β} (hp : (p.run c).Within n) : ((p >>= fun v => pure (g v)).run c).Within n :=
  within_bind hp fun _ _ _ => within_pure _

theorem within_orElse (hp : (p.run c).Within n) (hq : (q.run c).Within n) : ((p <|> q).run c).Within n := by
  rw [run_orElse]
  unfold Reply.orTry
  split
  · exact hq.after hp
  · exact hp

theorem within_firstOf {ps : List (Rule α)} (h : ∀ p ∈ ps, (p.run c).Within n) : ((firstOf ps).run c).Within n := by
  induction ps with
  | nil => exact Reply.within_nil n _
  | cons p ps ih => exact within_orElse (h p (by simp)) (ih fun q hq => h q (by simp [hq]))

theorem within_orElse_found (h : (p.run c).outcome = .found v d) (hp : (p.run c).Within n) :
    ((p <|> q).run c).Within n := by
  rw [run_orElse_found h]
  exact hp

/-- A lexeme is missed where it should begin. -/
theorem within_lexeme {wanted : Wanted} {scan : Text → Option (α × Nat)} (h : c.offset ≤ n) :
    ((lexeme wanted scan).run c).Within n := by
  intro m hm
  cases hs : scan c.rest with
  | some r => simp [lexeme, hs] at hm
  | none =>
    obtain rfl : m = ⟨c.offset, wanted⟩ := by simpa [lexeme, hs] using hm
    exact h

theorem within_integer (h : c.offset ≤ n) : (integer.run c).Within n := by
  refine within_bind (within_lexeme h) fun w d _ => ?_
  by_cases hlong : digitLimit < w.length
  · rw [if_pos hlong]
    exact Reply.within_nil _ _
  · rw [if_neg hlong]
    exact within_pure _

/-! ## Spaces and marks -/

theorem run_to_skip (c : Cursor) : spaces.run c = ⟨.found () c.skip, []⟩ := by
  have rest : c.rest.drop (c.rest.takeWhile isSpace).length = c.rest.dropWhile isSpace := by
    obtain ⟨a, k, hc, ha, hk⟩ := exists_run isSpace c.rest
    rw [hc, takeWhile_run ha hk, dropWhile_run ha hk, List.drop_left]
  show (⟨.found () ⟨c.ahead, c.rest.drop (c.rest.takeWhile isSpace).length⟩, []⟩ : Reply Unit) = _
  rw [rest]
  rfl

theorem run_skip (f : Unit → Rule β) (c : Cursor) : (spaces >>= f).run c = (f ()).run c.skip := by
  rw [run_bind_found (by rw [run_to_skip]), run_to_skip]
  rfl

variable {word : String} {g : Unit → Rule β} {k : Text}

theorem run_mark (h : c.rest = word.toList ++ k) :
    (literal word >>= g).run c = (g ()).run ⟨c.offset + word.toList.length, k⟩ := by
  have found := run_literal (c := c) ⟨k, h.symm⟩
  rw [run_bind_found (by rw [found]), found]
  show (g ()).run ⟨c.offset + word.toList.length, c.rest.drop word.toList.length⟩ = _
  rw [h, List.drop_left]

theorem run_no_mark (h : ¬ word.toList <+: c.rest) :
    (literal word >>= g).run c = ⟨.missing, [⟨c.offset, .symbol word⟩]⟩ := by
  have missing := run_literal_absent h
  rw [run_bind_missing (by rw [missing]), missing]

theorem mark_of_found {w : β} (hf : ((literal word >>= g).run c).outcome = .found w d) :
    ∃ k, c.rest = word.toList ++ k := by
  obtain ⟨_, e, he, -⟩ := found_bind.mp hf
  obtain ⟨s, hs, rfl⟩ := sound_literal word c _ e he
  exact ⟨e.rest, hs.1⟩

theorem run_opening (h : c.rest = word.toList ++ k) :
    (literal word >>= fun _ => spaces >>= g).run c = (g ()).run (c.past word k) := by
  rw [run_mark h, run_skip]
  rfl

theorem run_absent (h : ¬ word.toList <+: c.skip.rest) :
    (do spaces; literal word; g ()).run c = ⟨.missing, [⟨c.ahead, .symbol word⟩]⟩ := by
  rw [run_skip, run_no_mark h]
  rfl

theorem run_separator (h : c.skip.rest = word.toList ++ k) :
    (succeeds (do spaces; literal word; spaces)).run c = ⟨.found true (c.skip.past word k), []⟩ := by
  have comma : (do spaces; literal word; spaces).run c = ⟨.found () (c.skip.past word k), []⟩ := by
    rw [run_skip, run_mark h, run_to_skip]
    rfl
  unfold succeeds
  rw [run_orElse_found (v := true) (d := c.skip.past word k) (by rw [run_bind_found (by rw [comma])]; rfl),
    run_bind_found (by rw [comma]), comma]
  rfl

theorem run_no_separator (h : ¬ word.toList <+: c.skip.rest) :
    (succeeds (do spaces; literal word; spaces)).run c = ⟨.found false c, [⟨c.ahead, .symbol word⟩]⟩ := by
  have comma : (do spaces; literal word; spaces).run c = ⟨.missing, [⟨c.ahead, .symbol word⟩]⟩ := by
    rw [run_skip]
    exact run_no_mark h
  unfold succeeds
  rw [run_orElse_missing (by rw [run_bind_missing (by rw [comma])]), run_bind_missing (by rw [comma]), comma]
  rfl

/-- A mark that is found behind spaces. -/
theorem found_closing {w : α} (hf : ((do spaces; literal word; pure v : Rule α).run c).outcome = .found w d) :
    ∃ k, c.skip.rest = word.toList ++ k ∧ d = ⟨c.ahead + word.toList.length, k⟩ ∧ w = v ∧
      (do spaces; literal word; pure v : Rule α).run c = ⟨.found w d, []⟩ := by
  by_cases h : word.toList <+: c.skip.rest
  · obtain ⟨k, hk⟩ := h
    have run : (do spaces; literal word; pure v : Rule α).run c = ⟨.found v ⟨c.ahead + word.toList.length, k⟩, []⟩ := by
      rw [run_skip, run_mark hk.symm]
      rfl
    rw [run] at hf ⊢
    cases hf
    exact ⟨k, hk.symm, rfl, rfl, rfl⟩
  · rw [run_absent (g := fun _ => pure v) h] at hf
    cases hf

/-! ## Rules that do not begin -/

/-- The rule finds nothing, and misses only what should be right here. -/
structure Declines (p : Rule α) (c : Cursor) : Prop where
  missing : (p.run c).outcome = .missing
  here : (p.run c).Within c.offset

theorem Declines.bind (h : Declines p c) : Declines (p >>= f) c := by
  refine ⟨by rw [run_bind_missing h.missing], within_bind h.here fun v d hd => ?_⟩
  rw [h.missing] at hd
  cases hd

theorem declines_fail : Declines (fail : Rule α) c := ⟨rfl, Reply.within_nil _ _⟩

theorem declines_here {f : Cursor → Rule α} (h : Declines (f c) c) : Declines (do let start ← here; f start) c := by
  have run := run_here f c
  exact ⟨by rw [run]; exact h.missing, by rw [run]; exact h.here⟩

theorem Declines.orElse (h : Declines p c) (h' : Declines q c) : Declines (p <|> q) c := by
  refine ⟨?_, within_orElse h.here h'.here⟩
  rw [run_orElse_missing h.missing]
  exact h'.missing

theorem Declines.fix {body : Rule α → Rule α} (h : ∀ p, Declines (body p) c) : Declines (fix body) c := by
  obtain ⟨o, t⟩ := c
  cases t with
  | nil => exact ⟨(h fail).missing, (h fail).here⟩
  | cons x t => exact ⟨(h ⟨rounds body t⟩).missing, (h ⟨rounds body t⟩).here⟩

theorem declines_lexeme {wanted : Wanted} {scan : Text → Option (α × Nat)}
    (h : Skips False (lexeme wanted scan) c.rest) : Declines (lexeme wanted scan) c :=
  ⟨(h c.offset).resolve_right fun hr => hr.1, within_lexeme (Nat.le_refl _)⟩

/-- Nothing that is found is found by a rule that does not begin. -/
theorem Declines.not_found (h : Declines p c) : (p.run c).outcome ≠ .found v d := by
  intro he
  rw [h.missing] at he
  cases he

/-- What is found behind a rule that does not begin is found by the next one. -/
theorem Declines.found (h : Declines p c) (hf : ((p <|> q).run c).outcome = .found v d) :
    (q.run c).outcome = .found v d := by
  rw [run_orElse_missing h.missing] at hf
  exact hf

end Rule

namespace Grammar

open Rule Spelling

variable {expr atom operand : Rule Expression} {N n : Nat}

/-- Where fewer than `N` characters are ahead, and what comes behind does not go on with what is found, nothing is missed
    beyond the next character behind it. -/
def LooksBelow (N n : Nat) (p : Rule α) : Prop :=
  ∀ c v d, c.rest.length < N → (p.run c).outcome = .found v d → Ends n d.rest → (p.run c).Within d.ahead

/-! ## Levels -/

theorem looks_level {op : BinaryOp} {symbol : String} (hsym : symbol.toList = [op.sign]) (ho : Advances operand)
    (h : LooksBelow N op.looseness operand) : LooksBelow N (op.looseness + 1) (level op symbol operand) := by
  have hne : symbol.toList ≠ [] := by simp [hsym]
  intro c v d hc hf hd
  induction hlen : c.rest.length using Nat.strongRecOn generalizing c v d with
  | ind length ih =>
  rw [level_eq hne ho] at hf ⊢
  obtain ⟨left, e, he, hf⟩ := found_bind.mp hf
  have hel := ho.length_le he
  by_cases hs : symbol.toList <+: e.skip.rest
  · -- The operator is there. As it is not behind the whole expression, an operand behind it has been found.
    obtain ⟨k, hk⟩ := hs
    obtain ⟨a, ha, hrest, -⟩ := e.exists_skip
    have behind : e.rest = a ++ op.sign :: k := by rw [hrest, ← hk, hsym]; rfl
    rcases found_orElse.mp hf with hm | ⟨-, hm⟩
    · have found := hm
      rw [run_skip, run_opening hk.symm] at found
      obtain ⟨right, _, hg, hp⟩ := found_bind.mp found
      cases hp
      have fewer := Nat.lt_of_lt_of_le (Cursor.past_fewer hk.symm hne) e.skip_fewer
      have farther : e.ahead ≤ d.ahead := by
        obtain ⟨s, hs⟩ := advances_level hne ho _ _ _ hg
        exact Nat.le_trans (e.skip.offset_le_past symbol k) (Nat.le_trans (Cursor.offset_le_ahead _) hs.ahead_le)
      refine within_behind he ((h c left e hc he (behind ▸ (ends_sign ha).1)).mono farther) ?_
      refine within_orElse_found hm ?_
      rw [run_skip, run_opening hk.symm]
      exact within_map (ih _ (by omega) _ right d (by omega) hg hd rfl)
    · cases hm
      have := hd.2 op (Nat.lt_succ_self _)
      rw [behind, dropWhile_spaces ha (sign_stops op).1] at this
      exact absurd rfl this
  · have absent := run_absent (g := fun _ => do
      spaces; let right ← level op symbol operand; pure (Expression.binary op left right)) hs
    rcases found_orElse.mp hf with hm | ⟨-, hm⟩
    · rw [absent] at hm
      cases hm
    · cases hm
      refine within_behind he (h c v d hc he (hd.mono (Nat.le_succ _))) (within_orElse ?_ (within_pure _))
      rw [absent]
      intro m hm
      cases List.mem_singleton.mp hm
      exact Nat.le_refl _

theorem looks_operators (ha : Advances atom) (h : LooksBelow N 0 atom) : LooksBelow N 4 (operators atom) := by
  have h1 : LooksBelow N 1 (level .multiply "*" atom) := looks_level rfl ha h
  have a1 : Advances (level .multiply "*" atom) := advances_level (by simp) ha
  have h2 : LooksBelow N 2 (level .divide "/" (level .multiply "*" atom)) := looks_level rfl a1 h1
  have a2 : Advances (level .divide "/" (level .multiply "*" atom)) := advances_level (by simp) a1
  have h3 : LooksBelow N 3 (level .add "+" (level .divide "/" (level .multiply "*" atom))) := looks_level rfl a2 h2
  exact looks_level rfl (advances_level (by simp) a2) h3

/-! ## What does not begin -/

theorem declines_literal_char {word : String} {x : Char} {c : Cursor} (hw : word.toList = [x])
    (h : c.rest.head? ≠ some x) : Declines (literal word) c := declines_lexeme (skips_literal_char hw h)

theorem declines_integer {c : Cursor} (h : Stops Char.isDigit c.rest) : Declines integer c :=
  ⟨(skips_integer h c.offset).resolve_right fun hr => hr.1, within_integer (Nat.le_refl _)⟩

theorem declines_functionCall {c : Cursor} (h : Stops Char.isUpper c.rest) : Declines (functionCall expr) c := by
  have name : Declines functionName c := declines_lexeme (skips_functionName h)
  exact declines_here name.bind

/-- Where there is no letter and no digit, there is no number and no name. -/
theorem declines_operand (expr : Rule Expression) {c : Cursor} (hd : Stops Char.isDigit c.rest) (hl : Stops Char.isAlpha c.rest) :
    Declines (firstOf
      [ do let x ← real; pure (.real x),
        do let n ← integer; pure (.integer n),
        do let a ← arrayReferenceOf expr; pure a.expression,
        do let name ← letter; pure (.scalar name) ]) c := by
  have real : Declines real c := declines_lexeme (skips_real hd)
  have digits : Declines integer c := declines_integer hd
  have name : Declines letter c := declines_lexeme (skips_letter hl)
  have element : Declines (arrayReferenceOf expr) c := name.bind
  exact real.bind.orElse (digits.bind.orElse (element.bind.orElse (name.bind.orElse declines_fail)))

theorem declines_expression {c : Cursor} (h : Stops begins c.rest) : Declines expression c := by
  have noLetter : Stops Char.isAlpha c.rest := h.mono fun x hx => by simp [begins, hx]
  have noDigit : Stops Char.isDigit c.rest := h.mono fun x hx => by simp [begins, hx]
  have noCapital : Stops Char.isUpper c.rest := noLetter.mono fun x => isAlpha_of_isUpper
  have parenthesis : Declines (literal "(") c := declines_literal_char rfl (h.head_ne (by decide))
  have minus : Declines (literal "-") c := declines_literal_char rfl (h.head_ne (by decide))
  have declinesAtom : Declines (atomOf expression) c := by
    rw [atomOf_eq advances_expression]
    exact parenthesis.bind.orElse ((declines_functionCall noCapital).orElse
      (minus.bind.orElse (declines_operand _ noDigit noLetter)))
  have declinesLevel {op : BinaryOp} {symbol : String} {operand : Rule Expression} (h : Declines operand c) :
      Declines (level op symbol operand) c := .fix fun _ => h.bind
  rw [expression_eq]
  exact declinesLevel (declinesLevel (declinesLevel (declinesLevel declinesAtom)))

/-! ## Parentheses, calls and indices -/

section Inner

variable {c d : Cursor} (h : LooksBelow N 4 expr) (ha : Advances expr)

include h

theorem looks_parenthesised {v : Expression} (hc : c.rest.length < N + 1)
    (hf : ((parenthesised expr).run c).outcome = .found v d) : ((parenthesised expr).run c).Within d.offset := by
  unfold parenthesised at hf ⊢
  obtain ⟨k, hk⟩ := mark_of_found hf
  have fewer := Nat.lt_of_lt_of_le (Cursor.past_fewer hk (by simp)) (Nat.le_of_lt_succ hc)
  rw [run_opening hk] at hf ⊢
  obtain ⟨inner, e, he, hf⟩ := found_bind.mp hf
  obtain ⟨k', hk', rfl, rfl, close⟩ := found_closing hf
  obtain ⟨a, hspaces, hrest, -⟩ := e.exists_skip
  have ends : Ends 4 e.rest := by
    rw [hrest, hk']
    exact (ends_mark (.inl rfl) hspaces).1
  refine within_behind he ((h _ v e fewer he ends).mono (Nat.le_add_right _ _)) ?_
  rw [close]
  exact Reply.within_nil _ _

include ha

theorem looks_functionCall {v : Expression} (hc : c.rest.length < N + 1)
    (hf : ((functionCall expr).run c).outcome = .found v d) : ((functionCall expr).run c).Within d.offset := by
  unfold functionCall at hf ⊢
  rw [run_here] at hf ⊢
  obtain ⟨name, e, he, hf⟩ := found_bind.mp hf
  obtain ⟨s, hs, -⟩ := sound_functionName c name e he
  have shorter : e.rest.length ≤ c.rest.length := sound_functionName.advances.length_le he
  cases hb : builtIn? name with
  | none =>
    simp only [hb] at hf
    cases hf
  | some f =>
    simp only [hb] at hf
    obtain ⟨argument, g, hg, hp⟩ := found_bind.mp hf
    cases hp
    have before : c.offset ≤ d.offset := by
      obtain ⟨t, ht⟩ := (advances_parenthesised ha) e argument d hg
      exact Nat.le_trans hs.offset_le ht.offset_le
    refine within_behind he (within_lexeme before) ?_
    simp only [hb]
    exact within_map (looks_parenthesised h (by omega) hg)

theorem looks_separated {es : List Expression} (hc : c.rest.length < N)
    (hf : ((separated "," expr).run c).outcome = .found es d) (hd : Ends 4 d.rest) :
    ((separated "," expr).run c).Within d.ahead := by
  induction hlen : c.rest.length using Nat.strongRecOn generalizing c es with
  | ind length ih =>
  rw [separated_eq (by simp) ha] at hf ⊢
  obtain ⟨first, e, he, hf⟩ := found_bind.mp hf
  have hel := ha.length_le he
  by_cases hs : ",".toList <+: e.skip.rest
  · obtain ⟨k, hk⟩ := hs
    obtain ⟨a, hspaces, hrest, -⟩ := e.exists_skip
    have ends : Ends 4 e.rest := by
      rw [hrest, ← hk]
      exact (ends_mark (.inr rfl) hspaces).1
    have comma := run_separator hk.symm
    rw [run_bind_found (by rw [comma])] at hf
    obtain ⟨others, g, hg, hp⟩ := found_bind.mp hf
    cases hp
    have fewer := Nat.lt_of_lt_of_le (Cursor.past_fewer hk.symm (by simp)) e.skip_fewer
    have farther : e.ahead ≤ d.ahead := by
      obtain ⟨s, hs⟩ := (advances_separated (by simp) ha) _ _ _ hg
      exact Nat.le_trans (e.skip.offset_le_past "," k) (Nat.le_trans (Cursor.offset_le_ahead _) hs.ahead_le)
    refine within_behind he ((h c first e hc he ends).mono farther) (within_behind (by rw [comma]) ?_ ?_)
    · rw [comma]
      exact Reply.within_nil _ _
    · exact within_map (ih _ (by omega) (by omega) hg rfl)
  · have none := run_no_separator hs
    rw [run_bind_found (by rw [none])] at hf
    cases hf
    refine within_behind he (h c first d hc he hd) (within_behind (by rw [none]) ?_ (within_pure _))
    rw [none]
    intro m hm
    cases List.mem_singleton.mp hm
    exact Nat.le_refl _

theorem looks_arrayReferenceOf (hx : ∀ c, Stops begins c.rest → Declines expr c) {r : ArrayReference}
    (hc : c.rest.length < N + 1) (hf : ((arrayReferenceOf expr).run c).outcome = .found r d) :
    ((arrayReferenceOf expr).run c).Within d.offset := by
  unfold arrayReferenceOf at hf ⊢
  obtain ⟨name, e, he, hf⟩ := found_bind.mp hf
  obtain ⟨s, hs, -⟩ := sound_letter c name e he
  have shorter := advances_letter.length_le he
  obtain ⟨k, hk⟩ := mark_of_found hf
  rw [run_opening hk] at hf
  have fewer := Nat.lt_of_lt_of_le (Cursor.past_fewer hk (by simp)) (Nat.le_trans shorter (Nat.le_of_lt_succ hc))
  obtain ⟨es, g, hg, hf⟩ := found_bind.mp hf
  obtain ⟨k', hk', rfl, rfl, close⟩ := found_closing hf
  obtain ⟨a, hspaces, hrest, -⟩ := g.exists_skip
  have farther : (e.past "(" k).offset ≤ g.ahead := by
    obtain ⟨t, ht⟩ := ((advances_separated (by simp) ha).orElse (advances_pure [])) _ es g hg
    exact Nat.le_trans (Cursor.offset_le_ahead _) ht.ahead_le
  have indices : ((separated "," expr <|> pure []).run (e.past "(" k)).Within g.ahead := by
    rcases found_orElse.mp hg with hm | ⟨-, hp⟩
    · refine within_orElse_found hm (looks_separated h ha fewer hm ?_)
      rw [hrest, hk']
      exact (ends_mark (.inl rfl) hspaces).1
    · -- Without an index a closing parenthesis is next, and no expression begins with it.
      cases hp
      have closing : (e.past "(" k).rest = ")".toList ++ k' := by
        rw [← hk']
        exact (e.past_stops "(" k).dropWhile.symm
      have declines : Declines (separated "," expr) (e.past "(" k) := by
        rw [separated_eq (by simp) ha]
        exact (hx _ (by rw [closing]; simp [begins])).bind
      exact within_orElse (declines.here.mono farther) (within_pure _)
  have before : c.offset ≤ g.ahead := by
    have := e.offset_le_past "(" k
    rw [hs.2] at this
    omega
  refine within_behind he (within_lexeme (Nat.le_trans before (Nat.le_add_right _ _))) ?_
  rw [run_opening hk]
  refine within_behind hg (indices.mono (Nat.le_add_right _ _)) ?_
  rw [close]
  exact Reply.within_nil _ _

end Inner

/-! ## Atoms -/

/-- A call that is not found although it does not begin with the name of a function has not begun at all. -/
theorem within_functionCall {c : Cursor} (hm : ((functionCall expr).run c).outcome = .missing)
    (h : ∀ f : BuiltIn, ¬ f.spelling.toList <+: c.rest) : ((functionCall expr).run c).Within c.offset := by
  unfold functionCall at hm ⊢
  rw [run_here] at hm ⊢
  refine within_bind (within_lexeme (Nat.le_refl _)) fun name e he => ?_
  obtain ⟨s, hs, rfl, -⟩ := sound_functionName c name e he
  rw [run_bind_found he] at hm
  cases hb : builtIn? s with
  | none =>
    simp only [hb] at hm
    cases hm
  | some f =>
    refine absurd ?_ (h f)
    rw [← builtIn?_some hb, hs.1]
    exact List.prefix_append _ _

/-- The letter that is found has no N behind, and what comes behind an element does not matter. -/
theorem looks_element_or_letter {c d : Cursor} {v : Expression} (h : LooksBelow N 4 expression) {x : Char} {t : Text}
    (hc : c.rest = x :: t) (hx : x.isAlpha = true) (hlen : c.rest.length < N + 1)
    (hf : ((firstOf
      [do let a ← arrayReferenceOf expression; pure a.expression, do let name ← letter; pure (.scalar name)]).run
        c).outcome = .found v d) (hd : Stops clings d.rest) :
    t.head? ≠ some 'N' ∧ ((firstOf
      [do let a ← arrayReferenceOf expression; pure a.expression, do let name ← letter; pure (.scalar name)]).run
        c).Within d.offset := by
  have name : letter.run c = ⟨.found x ⟨c.offset + 1, t⟩, []⟩ := by
    simp [letter, lexeme, Lexeme.letter, hc, hx, Cursor.advance]
  have last : ((do let name ← letter; pure (Expression.scalar name)) <|> fail).run c =
      ⟨.found (.scalar x) ⟨c.offset + 1, t⟩, []⟩ := by
    rw [orElse_fail, run_bind_found (by rw [name]), name]
    rfl
  rcases found_orElse.mp hf with hm | ⟨hm, hp⟩
  · obtain ⟨r, e, he, hp⟩ := found_bind.mp hm
    cases hp
    refine ⟨fun hn => ?_, within_orElse_found hm (within_map ?_)⟩
    · have missing : ((arrayReferenceOf expression).run c).outcome = .missing := by
        have skips : Skips False (arrayReferenceOf expression) c.rest := by
          rw [hc]
          exact skips_arrayReferenceOf (by simp [hn])
        exact (skips c.offset).resolve_right fun hr => hr.1
      rw [missing] at he
      cases he
    · exact looks_arrayReferenceOf h advances_expression (fun _ => declines_expression) hlen he
  · have found := hp
    change (((do let name ← letter; pure (Expression.scalar name)) <|> fail).run c).outcome = _ at found
    rw [last] at found
    cases found
    have noIndex : ¬ "(".toList <+: t := fun ho => by
      obtain ⟨k, rfl⟩ := ho
      simp [clings] at hd
    refine ⟨hd.head_ne (by decide), within_orElse (within_map ?_) ?_⟩
    · refine within_behind (by rw [name]) (within_lexeme (Nat.le_succ _)) ?_
      rw [run_no_mark noIndex]
      intro m hm
      cases List.mem_singleton.mp hm
      exact Nat.le_refl _
    · show Reply.Within _ (((do let name ← letter; pure (Expression.scalar name)) <|> fail).run c)
      rw [last]
      exact Reply.within_nil _ _

/-- Where a letter is ahead, what is found is a call, an element, or the letter alone. -/
theorem looks_named {c d : Cursor} {v : Expression} (h : LooksBelow N 4 expression) {x : Char} {t : Text}
    (hc : c.rest = x :: t) (hx : x.isAlpha = true) (hlen : c.rest.length < N + 1)
    (hf : ((atomOf expression).run c).outcome = .found v d) (hd : Stops clings d.rest) :
    ((atomOf expression).run c).Within d.offset := by
  have before : c.offset ≤ d.offset := by
    obtain ⟨s, hs⟩ := advances_atomOf advances_expression c v d hf
    exact hs.offset_le
  have noDigit : Stops Char.isDigit c.rest := by simpa [hc] using isDigit_of_isAlpha hx
  have noMark : ∀ y : Char, y.isAlpha = false → c.rest.head? ≠ some y := by
    rintro y hy he
    obtain rfl : x = y := by simpa [hc] using he
    rw [hx] at hy
    cases hy
  have parenthesis : Declines (parenthesised expression) c :=
    (declines_literal_char rfl (noMark '(' (by decide))).bind
  have minus : Declines (negation (atomOf expression)) c := (declines_literal_char rfl (noMark '-' (by decide))).bind
  have fraction : Declines real c := declines_lexeme (skips_real noDigit)
  have digits : Declines integer c := declines_integer noDigit
  rw [atomOf_eq advances_expression] at hf ⊢
  refine within_orElse (parenthesis.here.mono before) ?_
  rcases found_orElse.mp (parenthesis.found hf) with hm | ⟨hm, hothers⟩
  · exact within_orElse_found hm (looks_functionCall h advances_expression hlen hm)
  · have named := digits.bind.found (fraction.bind.found (minus.found hothers))
    obtain ⟨noN, within⟩ := looks_element_or_letter h hc hx hlen named hd
    have unnamed : ∀ f : BuiltIn, ¬ f.spelling.toList <+: c.rest := by
      rintro f ⟨k, hk⟩
      rw [hc] at hk
      cases f <;> cases hk <;> exact noN rfl
    exact within_orElse ((within_functionCall hm unnamed).mono before) (within_orElse (minus.here.mono before)
      (within_orElse (fraction.bind.here.mono before) (within_orElse (digits.bind.here.mono before) within)))

theorem looks_negation {c d : Cursor} {v : Expression} (h : LooksBelow N 0 atom) (hc : c.rest.length < N + 1)
    (hf : ((negation atom).run c).outcome = .found v d) (hd : Ends 0 d.rest) :
    ((negation atom).run c).Within d.ahead := by
  unfold negation at hf ⊢
  obtain ⟨k, hk⟩ := mark_of_found hf
  have fewer := Nat.lt_of_lt_of_le (Cursor.past_fewer hk (by simp)) (Nat.le_of_lt_succ hc)
  rw [run_opening hk] at hf ⊢
  obtain ⟨operand, e, he, hp⟩ := found_bind.mp hf
  cases hp
  exact within_map (h _ operand d fewer he hd)

theorem looks_atomOf (h : LooksBelow N 4 expression) (ha : LooksBelow N 0 (atomOf expression)) :
    LooksBelow (N + 1) 0 (atomOf expression) := by
  intro c v d hc hf hd
  have before : c.offset ≤ d.ahead := by
    obtain ⟨s, hs⟩ := advances_atomOf advances_expression c v d hf
    exact Nat.le_trans (Cursor.offset_le_ahead _) hs.ahead_le
  by_cases hl : Stops Char.isAlpha c.rest
  · have call : Declines (functionCall expression) c := declines_functionCall (hl.mono fun x => isAlpha_of_isUpper)
    have name : Declines letter c := declines_lexeme (skips_letter hl)
    have element : Declines (arrayReferenceOf expression) c := name.bind
    rw [atomOf_eq advances_expression] at hf ⊢
    by_cases hp : c.rest.head? = some '('
    · have minus : Declines (negation (atomOf expression)) c := (declines_literal_char (x := '-') rfl (by simp [hp])).bind
      have operand := declines_operand expression (c := c) (by simp [Stops, hp]) hl
      rcases found_orElse.mp hf with hm | ⟨-, hothers⟩
      · exact within_orElse_found hm ((looks_parenthesised h hc hm).mono (Cursor.offset_le_ahead d))
      · exact absurd hothers (call.orElse (minus.orElse operand)).not_found
    · have parenthesis : Declines (parenthesised expression) c := (declines_literal_char rfl hp).bind
      refine within_orElse (parenthesis.here.mono before) (within_orElse (call.here.mono before) ?_)
      by_cases hn : c.rest.head? = some '-'
      · have operand := declines_operand expression (c := c) (by simp [Stops, hn]) hl
        rcases found_orElse.mp (call.found (parenthesis.found hf)) with hm | ⟨-, hothers⟩
        · exact within_orElse_found hm (looks_negation ha hc hm hd)
        · exact absurd hothers operand.not_found
      · have minus : Declines (negation (atomOf expression)) c := (declines_literal_char rfl hn).bind
        exact within_orElse (minus.here.mono before) (within_orElse (within_map (within_lexeme before))
          (within_orElse (within_map (within_integer before)) ((element.bind.orElse
            (name.bind.orElse declines_fail)).here.mono before)))
  · obtain ⟨x, t, hxt, hx⟩ : ∃ x t, c.rest = x :: t ∧ x.isAlpha = true := by
      cases ht : c.rest with
      | nil => exact absurd (by rw [ht]; exact stops_nil _) hl
      | cons x t => exact ⟨x, t, rfl, by simpa [ht] using hl⟩
    exact (looks_named h hxt hx hc hf hd.1).mono (Cursor.offset_le_ahead d)

/-- An expression looks no farther than its atoms do. -/
theorem looks_of_atoms (ha : LooksBelow N 0 (atomOf expression)) : LooksBelow N 4 expression := by
  rw [expression_eq]
  exact looks_operators (advances_atomOf advances_expression) ha

theorem looks_atom (N : Nat) : LooksBelow N 0 (atomOf expression) := by
  induction N with
  | zero => exact fun c v d hc => absurd hc (Nat.not_lt_zero _)
  | succ N ih => exact looks_atomOf (looks_of_atoms ih) ih

/-- What is missed on the way to an expression is missed no farther than where it might have gone on. -/
theorem looks_expression {c d : Cursor} {v : Expression} (hf : (expression.run c).outcome = .found v d)
    (hd : Ends 4 d.rest) : (expression.run c).Within d.ahead :=
  looks_of_atoms (looks_atom (c.rest.length + 1)) c v d (Nat.lt_succ_self _) hf hd

/-! ## Comparisons -/

theorem within_comparisonOperator {c : Cursor} (h : c.offset ≤ n) : (comparisonOperator.run c).Within n := by
  refine within_firstOf fun p hp => ?_
  simp only [List.mem_cons, List.not_mem_nil, or_false] at hp
  rcases hp with rfl | rfl | rfl | rfl | rfl | rfl <;> exact within_map (within_lexeme h)

/-- A comparison looks no farther than its second expression does. -/
theorem looks_comparison {c d : Cursor} {v : Condition} (hf : (comparison.run c).outcome = .found v d)
    (hd : Ends 4 d.rest) : (comparison.run c).Within d.ahead := by
  unfold comparison comparisonOf at hf ⊢
  obtain ⟨l, e, he, hf⟩ := found_bind.mp hf
  rw [run_skip] at hf
  obtain ⟨op, g, hg, hf⟩ := found_bind.mp hf
  rw [run_skip] at hf
  obtain ⟨r, d, hr, hp⟩ := found_bind.mp hf
  cases hp
  obtain ⟨s, hs, rfl⟩ := sound_comparisonOperator _ _ _ hg
  obtain ⟨t, ht⟩ := advances_expression _ _ _ hr
  obtain ⟨a, hspaces, hrest, -⟩ := e.exists_skip
  obtain ⟨x, u, hop, hx, hclings, hsign, -⟩ := comparison_begins op
  have ends : Ends 4 e.rest := by
    rw [hrest, hs.1, hop]
    exact ends_behind hspaces hx hclings hsign
  have before : e.ahead ≤ d.ahead := calc
    e.ahead ≤ g.offset := hs.offset_le
    _ ≤ g.skip.ahead := Nat.le_trans (Cursor.offset_le_ahead g) (Cursor.offset_le_ahead g.skip)
    _ ≤ d.ahead := ht.ahead_le
  refine within_behind he ((looks_expression he ends).mono before) ?_
  rw [run_skip]
  refine within_behind hg (within_comparisonOperator before) ?_
  rw [run_skip]
  exact within_map (looks_expression hr hd)

end Grammar

end LineBasic
