import LineBasic.Proofs.Lookahead

/-
  LineBasic.Proofs.Reach — how far the rules for conditions, strings and statements look beyond what they find.

  As for expressions, what is missed on the way to a condition, a fragment or a target is missed no farther than where
  it might have gone on, if what comes behind does not go on with it (`looks_condition`, `looks_fragment`,
  `looks_target`). A single statement before a colon does not look behind that colon at all (`looks_single`), and a
  statement whose keyword is not there misses it where it begins, an assignment apart.
-/

namespace LineBasic

variable {α β : Type}

namespace Rule

variable {c : Cursor}

theorem reads_skip (c : Cursor) : ∃ a, Spaces a ∧ c.Reads a c.skip := by
  obtain ⟨a, ha, hrest, stops⟩ := c.exists_skip
  refine ⟨a, ha, hrest, ?_⟩
  have run : c.rest.takeWhile isSpace = a := by
    rw [hrest]
    exact takeWhile_run ha.isSpace stops
  show c.offset + (c.rest.takeWhile isSpace).length = _
  rw [run]

theorem declines_word {word : String} (h : ¬ word.toList <+: c.rest) : Declines (literal word) c :=
  declines_lexeme (skips_literal (by simpa [← List.isPrefixOf_iff_prefix] using h))

/-- A mark that is not behind the spaces is missed there. -/
theorem within_unmarked {word : String} {g : Unit → Rule β} (h : ¬ word.toList <+: c.skip.rest) :
    ((spaces >>= fun _ => literal word >>= g).run c).Within c.ahead := by
  rw [run_skip, run_no_mark h]
  intro m hm
  cases List.mem_singleton.mp hm
  exact Nat.le_refl _

theorem keyword_bind {word : String} {g : Unit → Rule β} :
    keyword word >>= g = literal word >>= fun _ => spaces >>= g := bind_assoc _ _ _

theorem within_keyword {c : Cursor} {n : Nat} {word : String} (h : c.offset ≤ n) :
    ((succeeds (keyword word)).run c).Within n := by
  refine within_orElse (within_map (within_bind (within_lexeme h) fun _ e _ => ?_)) (within_pure _)
  rw [run_to_skip]
  exact Reply.within_nil _ _

end Rule

namespace Grammar

open Rule Spelling

variable {operand : Rule Expression}

theorem looks_arrayReference {c d : Cursor} {r : ArrayReference} (hf : (arrayReference.run c).outcome = .found r d) :
    (arrayReference.run c).Within d.offset :=
  looks_arrayReferenceOf (N := c.rest.length) (fun _ _ _ _ => looks_expression) advances_expression
    (fun _ => declines_expression) (Nat.lt_succ_self _) hf

/-! ## Conditions -/

theorem ends_mark_of {c : Cursor} {x : Char} {k : Text} (h : c.skip.rest = x :: k) (hs : isSpace x = false)
    (hc : clings x = false) (hop : x ∉ ['+', '-', '*', '/']) : Ends 4 c.rest := by
  obtain ⟨a, ha, hrest, -⟩ := c.exists_skip
  rw [hrest, h]
  exact ends_behind ha hs hc hop

/-- A connective ends the comparison before it. -/
theorem ends_before {c : Cursor} (op : Connective) {k : Text} (h : c.skip.rest = op.keyword.toList ++ k) :
    Ends 4 c.rest := by
  obtain ⟨a, ha, hrest, -⟩ := c.exists_skip
  rw [hrest, h, ← List.append_assoc]
  exact ends_connective op ha k

theorem not_and_before_or {t k : Text} (h : t = Connective.or.keyword.toList ++ k) : ¬ "AND".toList <+: t := by
  rintro ⟨u, hu⟩
  rw [h] at hu
  cases hu

section Looks

variable {left v : Condition} {right : Rule Condition} {c d : Cursor}

/-- A junction looks as far as what it joins, and one that is not there no farther than where it should be. -/
theorem looks_joined (op : Connective) (hf : ((joined op op.keyword left right).run c).outcome = .found v d)
    (hr : ∀ k w, c.skip.rest = op.keyword.toList ++ k → (right.run (c.skip.past op.keyword k)).outcome = .found w d →
      (right.run (c.skip.past op.keyword k)).Within d.ahead) :
    (∃ k, c.skip.rest = op.keyword.toList ++ k) ∧ ((joined op op.keyword left right).run c).Within d.ahead := by
  unfold joined at hf ⊢
  rw [run_skip] at hf ⊢
  obtain ⟨k, hk⟩ := mark_of_found hf
  rw [run_opening hk] at hf ⊢
  obtain ⟨w, e, he, hp⟩ := found_bind.mp hf
  cases hp
  exact ⟨⟨k, hk⟩, within_map (hr k w hk he)⟩

theorem joined_ahead {op : Connective} {word : String} (hr : Advances right)
    (hf : ((joined op word left right).run c).outcome = .found v d) : c.ahead ≤ d.ahead := by
  obtain ⟨s, hs⟩ := advances_joined hr c v d hf
  exact hs.ahead_le

theorem looks_conjunction (hf : (conjunction.run c).outcome = .found v d) (hd : Halts d.rest) :
    (conjunction.run c).Within d.ahead := by
  induction hlen : c.rest.length using Nat.strongRecOn generalizing c v with
  | ind length ih =>
  rw [conjunction_eq] at hf ⊢
  obtain ⟨left, e, he, hf⟩ := found_bind.mp hf
  have shorter := advances_comparison.length_le he
  rcases found_orElse.mp hf with hm | ⟨-, hp⟩
  · obtain ⟨⟨k, hk⟩, within⟩ := looks_joined .and hm fun k w hk hw => by
      have := Nat.lt_of_lt_of_le (Cursor.past_fewer hk (by simp [Connective.keyword])) e.skip_fewer
      exact ih _ (by omega) hw rfl
    refine within_behind he ((looks_comparison he (ends_before .and hk)).mono ?_) (within_orElse_found hm within)
    exact joined_ahead advances_conjunction hm
  · cases hp
    exact within_behind he (looks_comparison he hd.1) (within_orElse (within_unmarked (hd.2 .and)) (within_pure _))

/-- What is missed on the way to a condition is missed no farther than where it might have gone on. -/
theorem looks_condition (hf : (condition.run c).outcome = .found v d) (hd : Halts d.rest) :
    (condition.run c).Within d.ahead := by
  induction hlen : c.rest.length using Nat.strongRecOn generalizing c v with
  | ind length ih =>
  rw [condition_eq] at hf ⊢
  obtain ⟨left, e, he, hf⟩ := found_bind.mp hf
  have shorter := advances_comparison.length_le he
  rcases found_orElse.mp hf with hm | ⟨hm, hf⟩
  · obtain ⟨⟨k, hk⟩, within⟩ := looks_joined .and hm fun k w _ hw => looks_conjunction hw hd
    refine within_behind he ((looks_comparison he (ends_before .and hk)).mono ?_) (within_orElse_found hm within)
    exact joined_ahead advances_conjunction hm
  rcases found_orElse.mp hf with ho | ⟨-, hp⟩
  · obtain ⟨⟨k, hk⟩, within⟩ := looks_joined .or ho fun k w hk hw => by
      have := Nat.lt_of_lt_of_le (Cursor.past_fewer hk (by simp [Connective.keyword])) e.skip_fewer
      exact ih _ (by omega) hw rfl
    have farther := joined_ahead advances_condition ho
    refine within_behind he ((looks_comparison he (ends_before .or hk)).mono farther) ?_
    refine within_orElse ?_ (within_orElse_found ho within)
    exact (within_unmarked (not_and_before_or hk)).mono farther
  · cases hp
    refine within_behind he (looks_comparison he hd.1) (within_orElse (within_unmarked (hd.2 .and)) ?_)
    exact within_orElse (within_unmarked (hd.2 .or)) (within_pure _)

end Looks

/-! ## Strings -/

theorem aborted_level {op : BinaryOp} {symbol : String} {cause : Abort} {c : Cursor} (hne : symbol.toList ≠ [])
    (ho : Advances operand) (h : (operand.run c).outcome = .aborted cause) :
    ((level op symbol operand).run c).outcome = .aborted cause := by
  rw [level_eq hne ho, run_bind_aborted h]

theorem fragment_eq : fragment = ((do let text ← quoted; pure (.literal text)) <|>
    (tab <|> do let value ← expression; pure (.number value))) := by
  unfold fragment fragmentOf firstOf
  simp only [List.foldr, orElse_fail]

/-- TAB is no function. -/
theorem expression_tab {c : Cursor} (h : "TAB(".toList <+: c.rest) :
    (expression.run c).outcome = .aborted (.unknownFunction c.offset "TAB".toList) := by
  obtain ⟨k, hk⟩ := h
  have name : (functionName.run ⟨c.offset, "TAB".toList ++ '(' :: k⟩).outcome = _ :=
    (takes_functionName (R := False) (by simp) (by simp) c.offset).resolve_right fun h => h.1
  have text : c = ⟨c.offset, "TAB".toList ++ '(' :: k⟩ := by rw [show "TAB".toList ++ '(' :: k = c.rest from hk]
  have parenthesis : Declines (parenthesised expression) c :=
    (declines_literal_char (x := '(') rfl (by rw [← hk]; simp)).bind
  have call : ((functionCall expression).run c).outcome = .aborted (.unknownFunction c.offset "TAB".toList) := by
    unfold functionCall
    rw [run_here, text, run_bind, Reply.outcome_andThen, name]
    rfl
  have atom : ((atomOf expression).run c).outcome = .aborted (.unknownFunction c.offset "TAB".toList) := by
    rw [atomOf_eq advances_expression]
    show ((parenthesised expression <|> (functionCall expression <|> _)).run c).outcome = _
    rw [run_orElse_missing parenthesis.missing]
    show ((functionCall expression <|> _).run c).outcome = _
    rw [run_orElse_aborted call, call]
  have ha : Advances (atomOf expression) := advances_atomOf advances_expression
  rw [expression_eq]
  refine aborted_level (by simp) (advances_level (by simp) (advances_level (by simp) (advances_level (by simp) ha))) ?_
  refine aborted_level (by simp) (advances_level (by simp) (advances_level (by simp) ha)) ?_
  exact aborted_level (by simp) (advances_level (by simp) ha) (aborted_level (by simp) ha atom)

theorem within_no_tab {c : Cursor} (h : ¬ "TAB(".toList <+: c.rest) : (tab.run c).Within c.offset := by
  unfold tab
  exact (declines_word h).bind.here

theorem looks_tab {c d : Cursor} {v : StringExpression} (hf : (tab.run c).outcome = .found v d) :
    (tab.run c).Within d.offset := by
  unfold tab at hf ⊢
  obtain ⟨k, hk⟩ := mark_of_found hf
  rw [run_opening hk] at hf ⊢
  obtain ⟨n, e, he, hf⟩ := found_bind.mp hf
  obtain ⟨k', hk', rfl, rfl, close⟩ := found_closing hf
  obtain ⟨s, hs⟩ := advances_integer _ _ _ he
  refine within_behind he (within_integer ?_) ?_
  · exact Nat.le_trans (Cursor.offset_le_ahead _) (Nat.le_trans hs.ahead_le (Nat.le_add_right _ _))
  · rw [close]
    exact Reply.within_nil _ _

theorem looks_fragment {c d : Cursor} {v : StringExpression} (hf : (fragment.run c).outcome = .found v d)
    (hd : Ends 4 d.rest) : (fragment.run c).Within d.ahead := by
  obtain ⟨s, hs⟩ := advances_fragment c v d hf
  rw [fragment_eq] at hf ⊢
  have before : c.offset ≤ d.ahead := Nat.le_trans c.offset_le_ahead hs.ahead_le
  have noText : ((do let text ← quoted; pure (StringExpression.literal text)).run c).Within d.ahead :=
    within_map (within_lexeme before)
  rcases found_orElse.mp hf with hm | ⟨-, hf⟩
  · exact within_orElse_found hm noText
  refine within_orElse noText ?_
  rcases found_orElse.mp hf with hm | ⟨-, hf⟩
  · exact within_orElse_found hm ((looks_tab hm).mono d.offset_le_ahead)
  obtain ⟨e, d, he, hp⟩ := found_bind.mp hf
  cases hp
  refine within_orElse ((within_no_tab fun h => ?_).mono before) ?_
  · rw [expression_tab h] at he
    cases he
  · exact within_map (looks_expression he hd)

/-- A separator ends the fragment before it. -/
theorem ends_separated {t k : Text} {x : Char} (hx : x = ';' ∨ x = ',') (h : t = x :: k) : Ends 4 t := by
  rw [h]
  rcases hx with rfl | rfl
  · exact (free_semicolon k).1
  · exact (free_comma k).1

/-! ## Statements -/

theorem target_eq : target = ((do let a ← arrayReference; pure (.array a)) <|>
    do let name ← letter; pure (.scalar name)) := by
  unfold target targetOf firstOf
  simp only [List.foldr, orElse_fail]

/-- What is no element has no index behind its name. -/
theorem looks_target {c d : Cursor} {t : Target} (hf : (target.run c).outcome = .found t d)
    (hd : d.rest.head? ≠ some '(') : (target.run c).Within d.offset := by
  rw [target_eq] at hf ⊢
  rcases found_orElse.mp hf with hm | ⟨-, hf⟩
  · obtain ⟨r, e, he, hp⟩ := found_bind.mp hm
    cases hp
    exact within_orElse_found hm (within_map (looks_arrayReference he))
  obtain ⟨name, e, he, hp⟩ := found_bind.mp hf
  cases hp
  obtain ⟨s, hs, -⟩ := sound_letter c name d he
  have before : c.offset ≤ d.offset := hs.offset_le
  have noIndex : Declines (literal "(") d := declines_literal_char rfl hd
  refine within_orElse (within_map (within_behind he (within_lexeme before) ?_)) ?_
  · exact noIndex.bind.here
  · exact within_map (within_lexeme before)

variable {K : String} {p : Rule Statement} {c : Cursor}

/-- Only an assignment can begin without its keyword. -/
theorem declines_unbegun (h : (K, p) ∈ keywordRules) (hl : K ≠ "LET") (hn : ¬ K.toList <+: c.rest) : Declines p c := by
  have word : Declines (literal K) c := declines_word hn
  simp only [keywordRules, List.mem_cons, Prod.mk.injEq, List.not_mem_nil, or_false] at h
  rcases h with ⟨rfl, rfl⟩ | ⟨rfl, rfl⟩ | ⟨rfl, rfl⟩ | ⟨rfl, rfl⟩ | ⟨rfl, rfl⟩ | ⟨rfl, rfl⟩ | ⟨rfl, rfl⟩ | ⟨rfl, rfl⟩ |
    ⟨rfl, rfl⟩ | ⟨rfl, rfl⟩ | ⟨rfl, rfl⟩ | ⟨rfl, rfl⟩ | ⟨rfl, rfl⟩
  case inr.inr.inl => exact absurd rfl hl
  all_goals first | exact word.bind | exact Declines.bind word.bind

/-- An assignment that begins with two capitals but not with its keyword ends before the second one. -/
theorem within_assignStatement {x y : Char} {t : Text} (hc : c.rest = x :: y :: t) (hx : x.isUpper = true)
    (hy : y.isUpper = true) (hn : ¬ "LET".toList <+: c.rest) : (assignStatement.run c).Within (c.offset + 1) := by
  have near : c.offset ≤ c.offset + 1 := Nat.le_succ _
  have noLet : (keyword "LET" >>= fun _ => pure true).run c = ⟨.missing, [⟨c.offset, .symbol "LET"⟩]⟩ := by
    rw [keyword_bind]
    exact run_no_mark hn
  have unlettered : (succeeds (keyword "LET")).run c = ⟨.found false c, [⟨c.offset, .symbol "LET"⟩]⟩ := by
    unfold Rule.succeeds
    rw [run_orElse_missing (by rw [noLet]), noLet]
    rfl
  have name : letter.run c = ⟨.found x ⟨c.offset + 1, y :: t⟩, []⟩ := by
    simp [letter, lexeme, Lexeme.letter, hc, isAlpha_of_isUpper hx, Cursor.advance]
  have differs : ∀ mark : Char, mark.isUpper = false → y ≠ mark := by
    rintro mark hm rfl
    rw [hy] at hm
    cases hm
  -- Neither an index nor an equals sign is the second capital.
  have noIndex : Declines (literal "(") ⟨c.offset + 1, y :: t⟩ :=
    declines_literal_char (x := '(') rfl (by simpa using differs '(' (by decide))
  have noSpace : Stops isSpace (y :: t) := by simpa [isSpace] using differs ' ' (by decide)
  have noEqual : ¬ "=".toList <+: (Cursor.skip ⟨c.offset + 1, y :: t⟩).rest := by
    show ¬ "=".toList <+: (y :: t).dropWhile isSpace
    rw [noSpace.dropWhile]
    simpa using (differs '=' (by decide)).symm
  have skips : Skips False arrayReference c.rest := by
    rw [hc]
    exact skips_arrayReferenceOf (by simpa using differs '(' (by decide))
  have noElement : (arrayReference.run c).outcome = .missing := (skips c.offset).resolve_right fun h => h.1
  refine within_behind (by rw [unlettered]) (within_keyword near) ?_
  rw [target_eq]
  refine within_bind (within_orElse (within_map ?_) (within_map (within_lexeme near))) fun target d hd => ?_
  · exact within_behind (by rw [name]) (within_lexeme near) noIndex.bind.here
  · rcases found_orElse.mp hd with hm | ⟨-, hm⟩
    · obtain ⟨r, e, he, -⟩ := found_bind.mp hm
      rw [noElement] at he
      cases he
    obtain ⟨_, e, he, hp⟩ := found_bind.mp hm
    rw [name] at he
    cases he
    cases hp
    have place : Cursor.ahead ⟨c.offset + 1, y :: t⟩ = c.offset + 1 := by
      unfold Cursor.ahead
      rw [noSpace.takeWhile]
      rfl
    exact (within_unmarked noEqual).mono (Nat.le_of_eq place)

/-- A single statement before a colon is looked for alike whatever is behind the colon. -/
theorem single_before_colon {e : Cursor} {first : Statement} {u : Text}
    (h : ((firstOf statementRules).run c).outcome = .found first e) (hu : e.skip.rest = ':' :: u) :
    ∃ t, c.rest = t ++ ':' :: u ∧ c.offset + t.length = e.ahead ∧
      ∀ u, (firstOf statementRules).run ⟨c.offset, t ++ ':' :: u⟩ = ((firstOf statementRules).run ⟨c.offset, t⟩).extend (':' :: u) := by
  obtain ⟨a, ha, hskip⟩ := reads_skip e
  have single : first.IsSingle := by
    rcases found_single h with ⟨-, hf⟩ | ⟨-, hend⟩
    · exact hf
    · rw [hskip.1, hu] at hend
      simp at hend
  obtain ⟨noRemark, ⟨s, hs, balanced⟩, -⟩ := single_colon h single.ne_remark
  have text : c.rest = s ++ a ++ ':' :: u := by rw [hs.1, hskip.1, hu, List.append_assoc]
  have place : e.ahead = e.offset + a.length := hskip.2
  refine ⟨s ++ a, text, by rw [place, hs.2, List.length_append, Nat.add_assoc], fun u => ?_⟩
  refine single_extend (c := ⟨c.offset, s ++ a⟩) (fun hp => noRemark (hp.trans ?_)) ?_ u
  · rw [text]
    exact List.prefix_append _ _
  · exact (balanced_append balanced).mpr (spaces_balanced ha)

/-- A single statement before a colon has missed nothing behind that colon. -/
theorem looks_single {e : Cursor} {first : Statement} {u : Text}
    (h : ((firstOf statementRules).run c).outcome = .found first e) (hu : e.skip.rest = ':' :: u) :
    ((firstOf statementRules).run c).Within e.ahead := by
  obtain ⟨t, text, place, same⟩ := single_before_colon h hu
  have whole : c = ⟨c.offset, t ++ ':' :: u⟩ := by rw [← text]
  rw [whole, same, ← place]
  intro m hm
  rw [Reply.misses_extend] at hm
  exact single_between hm

end Grammar

end LineBasic
