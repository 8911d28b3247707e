import LineBasic.Proofs.Phrases
import LineBasic.Proofs.Chaining

/-
  LineBasic.Proofs.Recognition — every line is read as such.

  Each phrase of a line is read to its end where it is followed by what may follow it in a line, although the rules
  never reconsider a choice: no phrase can be taken for another one, and none goes on into what comes behind it. Only
  an abort can come between: at a number of too many digits, or at a name before a parenthesis that is no function.

  (1) String expressions and conditions.
  (2) Statements and lines.
  (3) A text on which nothing aborts has a tree if and only if it is a line with this tree.
-/

namespace LineBasic

namespace Grammar

open Rule Spelling

/-! ## (1) Strings and conditions -/

theorem takes_expr {s k : Text} {e : Expression} (h : Expr s e) (hk : Ends 4 k) : Takes True expression s e k :=
  (takes_expression h hk).mono fun _ => trivial

theorem takes_decimal {w k : Text} {n : Int} (h : Spelling.Number w n) (hk : Stops Char.isDigit k) :
    Takes True integer w n k := by
  obtain ⟨hd, rfl⟩ := h
  exact takes_integer hd hk fun _ => trivial

theorem takes_name {s k : Text} {c : Char} (h : Name s c) : Takes True letter s c k := by
  obtain ⟨rfl, hc⟩ := h
  exact takes_letter hc

theorem name_head {s : Text} {c : Char} (h : Name s c) (k : Text) : Stops isSpace (s ++ k) := by
  obtain ⟨rfl, hc⟩ := h
  exact letter_head hc k

theorem indexed_head {s : Text} {r : ArrayReference} (h : Indexed s r) (k : Text) : Stops isSpace (s ++ k) :=
  atom_head (.element h) k

theorem takes_written {s k : Text} {w : StringExpression} (h : Written s w) (hk : Closes k) :
    Takes True stringExpression s w k := by
  obtain ⟨u, b, d, hparts, rfl, rfl⟩ := h.parts
  exact (takes_dangling hparts d hk).mono fun _ => trivial

theorem written_head {s : Text} {w : StringExpression} (h : Written s w) (k : Text) : Stops isSpace (s ++ k) := by
  obtain ⟨u, b, d, hparts, rfl, -⟩ := h.parts
  rw [List.append_assoc]
  exact parts_head hparts _

theorem compared_head {s : Text} {c : Condition} (h : Compared s c) (k : Text) : Stops isSpace (s ++ k) := by
  cases h with
  | compare op hl =>
    rw [List.append_assoc, List.append_assoc, List.append_assoc, List.append_assoc]
    exact chain_head hl _

theorem takes_compared {s k : Text} {c : Condition} (h : Compared s c) (hk : Ends 4 k) :
    Takes True comparison s c k := by
  cases h with
  | compare op hl ha hb hr => exact (takes_comparing op hl ha hb hr hk).mono fun _ => trivial

theorem conjoined_head {s : Text} {c : Condition} (h : Conjoined s c) (k : Text) : Stops isSpace (s ++ k) := by
  cases h with
  | comparison hc => exact compared_head hc k
  | and hc =>
    rw [List.append_assoc, List.append_assoc, List.append_assoc, List.append_assoc]
    exact compared_head hc _

theorem tested_head {s : Text} {c : Condition} (h : Tested s c) (k : Text) : Stops isSpace (s ++ k) := by
  cases h with
  | comparison hc => exact compared_head hc k
  | and hc =>
    rw [List.append_assoc, List.append_assoc, List.append_assoc, List.append_assoc]
    exact compared_head hc _
  | or hc =>
    rw [List.append_assoc, List.append_assoc, List.append_assoc, List.append_assoc]
    exact compared_head hc _

theorem ends_connective {a : Text} (op : Connective) (ha : Spaces a) (k : Text) :
    Ends 4 (a ++ op.keyword.toList ++ k) := by
  rw [List.append_assoc]
  cases op with
  | and => exact ends_behind ha (c := 'A') (by decide) (by decide) (by decide)
  | or => exact ends_behind ha (c := 'O') (by decide) (by decide) (by decide)

/-- Neither an operator nor a connective is next. -/
def Halts (k : Text) : Prop := Ends 4 k ∧ ∀ op : Connective, ¬ op.keyword.toList <+: k.dropWhile isSpace

theorem halts_behind {a k : Text} {x : Char} (ha : Spaces a) (hs : isSpace x = false) (hc : clings x = false)
    (hop : x ∉ ['+', '-', '*', '/']) (hx : x ∉ ['A', 'O']) : Halts (a ++ x :: k) := by
  refine ⟨ends_behind ha hs hc hop, fun op => ?_⟩
  rw [dropWhile_spaces ha hs]
  rintro ⟨u, hu⟩
  refine hx ?_
  cases op with
  | and =>
    obtain ⟨rfl, -⟩ : 'A' = x ∧ _ := List.cons.inj hu
    decide
  | or =>
    obtain ⟨rfl, -⟩ : 'O' = x ∧ _ := List.cons.inj hu
    decide

theorem halts_then {a : Text} (ha : Spaces a) (k : Text) : Halts (a ++ ("THEN".toList ++ k)) :=
  halts_behind ha (x := 'T') (by decide) (by decide) (by decide) (by decide)

theorem skips_unjoined {k : Text} (op : Connective) {left : Condition} {right : Rule Condition} (hk : Halts k) :
    Skips True (joined op op.keyword left right) k := by
  have absent := hk.2 op
  obtain ⟨a, r, rfl, ha, hr⟩ := exists_spaces k
  rw [dropWhile_run ha.isSpace hr] at absent
  exact skips_joined ha hr (by simpa [← List.isPrefixOf_iff_prefix] using absent)

theorem takes_conjoined {s k : Text} {c : Condition} (h : Conjoined s c) (hk : Halts k) :
    Takes True conjunction s c k := by
  induction h with
  | comparison hc =>
    rw [conjunction_eq]
    exact (takes_compared hc hk.1).bind_nil (Skips.orElse_takes (skips_unjoined .and hk) takes_pure)
  | @and s c a b r d hc ha hb hd ih =>
    have all : s ++ a ++ "AND".toList ++ b ++ r = s ++ (a ++ Connective.and.keyword.toList ++ b ++ r) := by
      simp [Connective.keyword]
    rw [conjunction_eq, all]
    refine .bind (takes_compared hc ?_) (.orElse (takes_joined ha hb ih (conjoined_head hd _)))
    simpa using ends_connective .and ha (b ++ r ++ k)

theorem takes_tested {s k : Text} {c : Condition} (h : Tested s c) (hk : Halts k) : Takes True condition s c k := by
  induction h with
  | comparison hc =>
    rw [condition_eq]
    refine (takes_compared hc hk.1).bind_nil (Skips.orElse_takes (skips_unjoined .and hk) ?_)
    exact Skips.orElse_takes (skips_unjoined .or hk) takes_pure
  | @and s c a b r d hc ha hb hd =>
    have all : s ++ a ++ "AND".toList ++ b ++ r = s ++ (a ++ Connective.and.keyword.toList ++ b ++ r) := by
      simp [Connective.keyword]
    rw [condition_eq, all]
    have right : Takes True (joined .and "AND" c conjunction) _ _ _ :=
      takes_joined ha hb (takes_conjoined hd hk) (conjoined_head hd _)
    refine .bind (takes_compared hc ?_) (.orElse right)
    simpa using ends_connective .and ha (b ++ r ++ k)
  | @or s c a b r d hc ha hb hd ih =>
    have all : s ++ a ++ "OR".toList ++ b ++ r = s ++ (a ++ Connective.or.keyword.toList ++ b ++ r) := by
      simp [Connective.keyword]
    rw [condition_eq, all]
    refine .bind (takes_compared hc ?_) (Skips.orElse_takes ?_ (.orElse (takes_joined ha hb ih (tested_head hd _))))
    · simpa using ends_connective .or ha (b ++ r ++ k)
    · have other : Skips True (joined .and "AND" c conjunction) (a ++ ("OR".toList ++ (b ++ (r ++ k)))) :=
        skips_joined ha (by simp [isSpace]) rfl
      simpa [Connective.keyword] using other

/-! ## (2) Statements -/

section Lists

variable {α : Type} {item : Rule α} {L : Text → α → Prop}

theorem listed_text_head {s : Text} {vs : List α} (head : ∀ s v k, L s v → Stops isSpace (s ++ k)) (h : Listed L s vs)
    (k : Text) : Stops isSpace (s ++ k) := by
  cases h with
  | one hs => exact head _ _ k hs
  | more hs =>
    rw [List.append_assoc, List.append_assoc, List.append_assoc, List.append_assoc]
    exact head _ _ _ hs

/-- Items that are read wherever no digit is behind them. -/
theorem takes_items {s k : Text} {vs : List α} (hi : Advances item) (head : ∀ s v k, L s v → Stops isSpace (s ++ k))
    (take : ∀ s v k, L s v → Stops Char.isDigit k → Takes True item s v k) (h : Listed L s vs) (hk : Closes k) :
    Takes True (separated "," item) s vs k := by
  induction h with
  | one hs =>
    have noComma : Skips True (do spaces; literal ","; spaces) k :=
      skips_spaces_literal (c := ',') rfl (hk.behind (by decide))
    rw [separated_eq (by simp) hi]
    refine (take _ _ k hs (hk.stops (by decide) (by decide))).bind_nil ?_
    exact noComma.succeeds.bind_nil takes_pure
  | @more s v a b r vs hs ha hb hr ih =>
    have all : s ++ a ++ [','] ++ b ++ r = s ++ ((a ++ (",".toList ++ b)) ++ r) := by simp
    have next := takes_spaces (R := True) hb (listed_text_head head hr k)
    have comma : Takes True (do spaces; literal ","; spaces) (a ++ (",".toList ++ b)) () (r ++ k) :=
      .bind (takes_spaces ha (by simp [isSpace])) (.bind (takes_literal _) next)
    rw [separated_eq (by simp) hi, all]
    refine .bind (take _ _ _ hs ?_) (.bind comma.succeeds (ih.bind_nil takes_pure))
    simpa using stops_spaces (p := Char.isDigit) (k := b ++ r ++ k) ha (by decide) (c := ',') (by decide)

end Lists

theorem assigned_head {s : Text} {t : Target} (h : Assigned s t) (k : Text) : Stops isSpace (s ++ k) := by
  cases h with
  | array hr => exact indexed_head hr k
  | scalar hc => exact name_head hc k

theorem takes_assigned {s k : Text} {t : Target} (h : Assigned s t) (hk : k.head? ≠ some '(') :
    Takes True target s t k := by
  cases h with
  | array hr =>
    have element : Takes True arrayReference s _ k := (takes_arrayReference hr).mono fun _ => trivial
    exact .orElse (element.bind_nil takes_pure)
  | @scalar c hc =>
    obtain ⟨rfl, ha⟩ := hc
    have noIndex : Skips True arrayReference ([c] ++ k) := skips_arrayReferenceOf hk
    exact Skips.orElse_takes noIndex.bind (.orElse ((takes_letter ha).bind_nil takes_pure))

/-- What is assigned to begins with one letter. -/
theorem assigned_text {s : Text} {t : Target} (h : Assigned s t) :
    ∃ c u, s = c :: u ∧ (u = [] ∨ ∃ w, u = '(' :: w) := by
  cases h with
  | array hr =>
    cases hr with
    | indexed => exact ⟨_, _, rfl, .inr ⟨_, rfl⟩⟩
  | scalar hc => exact ⟨_, [], hc.1, .inl rfl⟩

theorem takes_stepped {s k : Text} {e : Expression} (h : Stepped s e) (hk : Closes k) :
    Takes True stepClause s e k := by
  cases h with
  | one =>
    obtain ⟨a, r, rfl, ha, hr⟩ := hk
    have noStep : Stops isSpace r ∧ "STEP".toList.isPrefixOf r = false := by
      rcases hr with rfl | ⟨u, rfl⟩
      · exact ⟨stops_nil _, rfl⟩
      · exact ⟨by simp [isSpace], by simp [List.isPrefixOf]⟩
    have clause : Skips True (do spaces; keyword "STEP") (a ++ r) :=
      (takes_spaces ha noStep.1).bind_skips (skips_literal noStep.2).bind
    exact clause.succeeds.bind_nil takes_pure
  | @step a b s e ha hb he =>
    have all : a ++ "STEP".toList ++ b ++ s = (a ++ ("STEP".toList ++ b)) ++ s := by simp
    have clause : Takes True (do spaces; keyword "STEP") (a ++ ("STEP".toList ++ b)) () (s ++ k) :=
      .bind (takes_spaces ha (by simp [isSpace])) (takes_keyword "STEP" hb (chain_head he k))
    rw [all]
    exact .bind clause.succeeds (takes_expr he hk.free.1)

theorem ends_stepped {s k : Text} {e : Expression} (h : Stepped s e) (hk : Closes k) : Ends 4 (s ++ k) := by
  cases h with
  | one => exact hk.free.1
  | step ha =>
    rw [List.append_assoc, List.append_assoc, List.append_assoc]
    exact ends_behind ha (c := 'S') (by decide) (by decide) (by decide)

/-- An assignment behind its keyword, or without it. -/
theorem takes_assignment {s a b r k : Text} {t : Target} {e : Expression} (ht : Assigned s t) (ha : Spaces a)
    (hb : Spaces b) (he : Expr r e) (hk : Ends 4 k) :
    Takes True
      (do
        let target ← target
        spaces; literal "="; spaces
        let value ← expression
        pure (Statement.assign target value))
      (s ++ (a ++ ("=".toList ++ (b ++ r)))) (.assign t e) k := by
  have noIndex : (a ++ ("=".toList ++ (b ++ r)) ++ k).head? ≠ some '(' := by
    have none : Stops (fun d => decide (d = '(')) (a ++ '=' :: (b ++ r ++ k)) := stops_spaces ha (by decide) (by decide)
    simpa using none.head_ne (by simp)
  refine .bind (takes_assigned ht noIndex) (.bind (takes_spaces ha (by simp [isSpace])) (.bind (takes_literal _) ?_))
  exact .bind (takes_spaces hb (chain_head he k)) ((takes_expr he hk).bind_nil takes_pure)

/-- No keyword begins with a letter before a character that is no capital. -/
theorem no_keyword {K : String} {p : Rule Statement} (h : (K, p) ∈ keywordRules) {c : Char} {t : Text}
    (ht : Stops Char.isUpper t) : K.toList.isPrefixOf (c :: t) = false := by
  obtain ⟨c', d, w, hK, -, hd⟩ := keyword_capitals h
  rw [hK]
  cases t with
  | nil => simp [List.isPrefixOf]
  | cons e t =>
    have : d ≠ e := by
      rintro rfl
      simp [hd] at ht
    simp [List.isPrefixOf, this]

theorem takes_assign_text {l s a b r k : Text} {t : Target} {e : Expression} (hl : Letting l) (ht : Assigned s t)
    (ha : Spaces a) (hb : Spaces b) (he : Expr r e) (hk : Ends 4 k) :
    Takes True (firstOf statementRules) (l ++ (s ++ (a ++ ("=".toList ++ (b ++ r))))) (.assign t e) k := by
  have rest := takes_assignment ht ha hb he hk
  cases hl with
  | @letting x hx =>
    have word : Takes True (keyword "LET") ("LET".toList ++ x) () (s ++ (a ++ ("=".toList ++ (b ++ r))) ++ k) :=
      takes_keyword "LET" hx (by rw [List.append_assoc]; exact assigned_head ht _)
    rw [List.append_assoc]
    refine takes_by_keyword (p := assignStatement) (by simp [keywordRules]) ?_
    rw [← List.append_assoc]
    exact .bind word.succeeds rest
  | nothing =>
    obtain ⟨c, u, rfl, hu⟩ := assigned_text ht
    -- No keyword is there: its second character would be a capital.
    have second : Stops Char.isUpper (u ++ (a ++ ("=".toList ++ (b ++ r)) ++ k)) := by
      rcases hu with rfl | ⟨w, rfl⟩
      · simpa using stops_spaces (p := Char.isUpper) (k := b ++ r ++ k) ha (by decide) (c := '=') (by decide)
      · simp
    have absent : ∀ {K : String} {p : Rule Statement}, (K, p) ∈ keywordRules →
        Skips True (literal K) (c :: u ++ (a ++ ("=".toList ++ (b ++ r))) ++ k) := by
      intro K p h
      refine skips_literal ?_
      have := no_keyword (c := c) h second
      simpa using this
    have noRemark : Skips True remarkStatement _ := (absent (p := remarkStatement) (by simp [keywordRules])).bind
    have noPrint : Skips True printStatement _ :=
      Skips.bind (absent (p := printStatement) (by simp [keywordRules])).bind
    have noLet : Skips True (keyword "LET") _ := (absent (p := assignStatement) (by simp [keywordRules])).bind
    exact Skips.orElse_takes noRemark (Skips.orElse_takes noPrint (.orElse (Takes.bind noLet.succeeds rest)))

theorem takes_if_text {a s b d w k : Text} {c : Condition} {n : Int} (ha : Spaces a) (hc : Tested s c) (hb : Spaces b)
    (hd : Spaces d) (hn : Spelling.Number w n) (hk : Stops Char.isDigit k) :
    Takes True (firstOf statementRules) ("IF".toList ++ (a ++ (s ++ (b ++ (("THEN".toList ++ d) ++ w)))))
      (.ifThen c n) k := by
  refine takes_behind_keyword (p := ifStatement) (by simp [keywordRules]) rfl ha ?_ ?_
  · rw [List.append_assoc]
    exact tested_head hc _
  refine .bind (takes_tested hc (by simpa using halts_then hb (d ++ (w ++ k)))) (.bind (takes_spaces hb (by simp [isSpace])) ?_)
  exact .bind (takes_keyword "THEN" hd (digits_head hn.1 k)) ((takes_decimal hn hk).bind_nil takes_pure)

theorem takes_for_text {a v b d s e f t p k : Text} {c : Char} {i j l : Expression} (ha : Spaces a) (hv : Name v c)
    (hb : Spaces b) (hd : Spaces d) (hs : Expr s i) (he : Spaces e) (hf : Spaces f) (ht : Expr t j) (hp : Stepped p l)
    (hk : Closes k) :
    Takes True (firstOf statementRules)
      ("FOR".toList ++ (a ++ (v ++ (b ++ ("=".toList ++ (d ++ (s ++ (e ++ (("TO".toList ++ f) ++ (t ++ p))))))))))
      (.forLoop c i j l) k := by
  refine takes_behind_keyword (p := forStatement) (by simp [keywordRules]) rfl ha ?_ ?_
  · rw [List.append_assoc]
    exact name_head hv _
  refine .bind (takes_name hv) (.bind (takes_spaces hb (by simp [isSpace])) (.bind (takes_literal _) ?_))
  refine .bind (takes_spaces hd (by rw [List.append_assoc]; exact chain_head hs _)) (.bind (takes_expr hs ?_) ?_)
  · simpa using ends_behind (k := 'O' :: (f ++ (t ++ (p ++ k)))) he (c := 'T') (by decide) (by decide) (by decide)
  refine .bind (takes_spaces he (by simp [isSpace])) (.bind (takes_keyword "TO" hf ?_) ?_)
  · rw [List.append_assoc]
    exact chain_head ht _
  exact .bind (takes_expr ht (ends_stepped hp hk)) ((takes_stepped hp hk).bind_nil takes_pure)

/-- PRINT alone takes the spaces behind it. -/
theorem takes_bare_print {x a r : Text} (hx : Spaces x) (ha : Spaces a) (hr : r = [] ∨ ∃ u, r = ':' :: u) :
    Takes True (firstOf statementRules) ("PRINT".toList ++ (x ++ a)) (.print (.literal [])) r := by
  have all : Spaces (x ++ a) := fun c hc => (List.mem_append.mp hc).elim (hx c) (ha c)
  have noBody : Stops isSpace r ∧ Skips True stringBody r := by
    rcases hr with rfl | ⟨u, rfl⟩
    · exact ⟨stops_nil _, (skips_stringBody (stops_nil _) (stops_nil _)).mono False.elim⟩
    · exact ⟨by simp [isSpace], (skips_stringBody (by simp [begins]) (by simp)).mono False.elim⟩
  refine takes_by_keyword (p := printStatement) (by simp [keywordRules]) ?_
  refine (takes_keyword "PRINT" all noBody.1).bind_nil ?_
  exact (Skips.orElse_takes noBody.2.bind takes_pure).bind_nil takes_pure

/-- Only PRINT without an operand can take more than its own text. -/
theorem takes_single_text {s k : Text} {v : Statement} (h : Single s v) (hk : Closes k) :
    Takes True (firstOf statementRules) s v k ∨ ∃ x, Spaces x ∧ s = "PRINT".toList ++ x ∧ v = .print (.literal []) := by
  cases h with
  | @print a s w ha hw =>
    refine .inl ?_
    rw [List.append_assoc]
    refine takes_behind_keyword (p := printStatement) (by simp [keywordRules]) rfl ha (written_head hw k) ?_
    exact (takes_written hw hk).orElse.bind_nil takes_pure
  | printNothing hx => exact .inr ⟨_, hx, rfl, rfl⟩
  | @assign l s t a b r e hl ht ha hb he =>
    refine .inl ?_
    simpa using takes_assign_text hl ht ha hb he hk.free.1
  | finish =>
    refine .inl ?_
    refine takes_word (K := "END") (p := finishStatement) (by simp [keywordRules]) ?_
    exact (takes_literal _).bind_nil takes_pure
  | @goto a w n ha hn =>
    refine .inl ?_
    rw [List.append_assoc]
    refine takes_behind_keyword (p := gotoStatement) (by simp [keywordRules]) rfl ha (digits_head hn.1 k) ?_
    exact (takes_decimal hn (hk.stops (by decide) (by decide))).bind_nil takes_pure
  | @gosub a w n ha hn =>
    refine .inl ?_
    rw [List.append_assoc]
    refine takes_behind_keyword (p := gosubStatement) (by simp [keywordRules]) rfl ha (digits_head hn.1 k) ?_
    exact (takes_decimal hn (hk.stops (by decide) (by decide))).bind_nil takes_pure
  | @ifThen a s c b d w n ha hc hb hd hn =>
    refine .inl ?_
    simpa using takes_if_text ha hc hb hd hn (hk.stops (by decide) (by decide))
  | forLoop ha hc hb hd hs he hf ht hp =>
    refine .inl ?_
    simpa using takes_for_text ha hc hb hd hs he hf ht hp hk
  | @nextLoop a s cs ha hs =>
    refine .inl ?_
    have head : ∀ s c k, Name s c → Stops isSpace (s ++ k) := fun s c k hc => name_head hc k
    rw [List.append_assoc]
    refine takes_behind_keyword (p := nextStatement) (by simp [keywordRules]) rfl ha (listed_text_head head hs k) ?_
    exact (takes_items advances_letter head (fun s c k hc _ => takes_name hc) hs hk).bind_nil takes_pure
  | @input a s w prompt names ha hw hshape =>
    refine .inl ?_
    rw [List.append_assoc]
    refine takes_behind_keyword (p := inputStatement) (by simp [keywordRules]) rfl ha (written_head hw k) ?_
    refine takes_here fun start => (takes_written hw hk).bind_nil ?_
    rw [inputOperand?_iff.mpr hshape]
    exact takes_pure
  | returnSub =>
    refine .inl ?_
    refine takes_word (K := "RETURN") (p := returnStatement) (by simp [keywordRules]) ?_
    exact (takes_literal _).bind_nil takes_pure
  | @dim a s arrays ha hs =>
    refine .inl ?_
    have head : ∀ s r k, Indexed s r → Stops isSpace (s ++ k) := fun s r k hr => indexed_head hr k
    have take : ∀ s r k, Indexed s r → Stops Char.isDigit k → Takes True arrayReference s r k :=
      fun s r k hr _ => (takes_arrayReference hr).mono fun _ => trivial
    rw [List.append_assoc]
    refine takes_behind_keyword (p := dimStatement) (by simp [keywordRules]) rfl ha (listed_text_head head hs k) ?_
    exact (takes_items advances_arrayReference head take hs hk).bind_nil takes_pure
  | @onGoto a x c b d s ns ha hc hb hd hs =>
    refine .inl ?_
    have head : ∀ w n k, Spelling.Number w n → Stops isSpace (w ++ k) := fun w n k hn => digits_head hn.1 k
    have all : "ON".toList ++ a ++ x ++ b ++ "GOTO".toList ++ d ++ s =
        "ON".toList ++ (a ++ (x ++ (b ++ (("GOTO".toList ++ d) ++ s)))) := by
      simp
    rw [all]
    refine takes_behind_keyword (p := onGotoStatement) (by simp [keywordRules]) rfl ha ?_ ?_
    · rw [List.append_assoc]
      exact name_head hc _
    refine .bind (takes_name hc) (.bind (takes_spaces hb (by simp [isSpace])) ?_)
    refine .bind (takes_keyword "GOTO" hd (listed_text_head head hs k)) ?_
    exact (takes_items advances_integer head (fun w n k hn hk => takes_decimal hn hk) hs hk).bind_nil takes_pure

/-- A statement is read with perhaps some of the spaces behind it. -/
theorem takes_with_spaces {s a r : Text} {v : Statement} (h : Single s v) (ha : Spaces a)
    (hr : r = [] ∨ ∃ u, r = ':' :: u) :
    ∃ b c, a = b ++ c ∧ Spaces b ∧ Takes True (firstOf statementRules) (s ++ b) v (c ++ r) := by
  rcases takes_single_text h ⟨a, r, rfl, ha, hr⟩ with hs | ⟨x, hx, rfl, rfl⟩
  · exact ⟨[], a, rfl, spaces_nil, by rwa [List.append_nil]⟩
  · refine ⟨a, [], by simp, ha, ?_⟩
    rw [List.append_assoc]
    exact takes_bare_print hx ha hr

theorem single_head {s : Text} {v : Statement} (h : Single s v) (k : Text) : Stops isSpace (s ++ k) := by
  cases h with
  | assign hl ht =>
    cases hl with
    | nothing =>
      rw [List.nil_append, List.append_assoc, List.append_assoc, List.append_assoc, List.append_assoc]
      exact assigned_head ht _
    | letting => simp [isSpace]
  | _ => simp [isSpace]

theorem line_head {s : Text} {v : Statement} (h : Line s v) (k : Text) : Stops isSpace (s ++ k) := by
  cases h with
  | remark => simp [isSpace]
  | single hs => exact single_head hs k
  | sequence hs =>
    rw [List.append_assoc, List.append_assoc, List.append_assoc, List.append_assoc]
    exact single_head hs _

/-- Behind spaces at the end of a text there is no other statement. -/
theorem skips_another {R : Prop} {pad : Text} (first : Statement) (hp : Spaces pad) : Skips R (another first) pad := by
  refine skips_spaces_literal (c := ':') rfl ?_
  have := dropWhile_run hp.isSpace (stops_nil _)
  rw [List.append_nil] at this
  simp [this]

/-- A line is read with perhaps some of the spaces at the end of the text: a remark takes all of them. -/
theorem takes_line {s pad : Text} {v : Statement} (h : Line s v) (hp : Spaces pad) :
    ∃ b c, pad = b ++ c ∧ Takes True statement (s ++ b) v c := by
  induction h with
  | remark t =>
    refine ⟨pad, [], by simp, ?_⟩
    have remark : Takes True remarkStatement ("REM".toList ++ (t ++ pad)) .remark [] :=
      .bind (takes_literal _) ((takes_restOfLine _).bind_nil takes_pure)
    rw [statement_eq_another, List.append_assoc]
    refine (takes_by_keyword (by simp [keywordRules]) remark).bind_nil (Skips.orElse_takes ?_ takes_pure)
    exact skips_another .remark spaces_nil
  | single hs =>
    obtain ⟨b, c, rfl, hb, hf⟩ := takes_with_spaces hs hp (.inl rfl)
    refine ⟨b, c, rfl, ?_⟩
    rw [statement_eq_another]
    rw [List.append_nil] at hf
    refine hf.bind_nil (Skips.orElse_takes (skips_another _ fun d hd => hp d ?_) takes_pure)
    exact List.mem_append_right b hd
  | @sequence s v a b r w hs ha hb hr ih =>
    obtain ⟨e, f, rfl, hw⟩ := ih
    obtain ⟨x, y, rfl, hx, hf⟩ := takes_with_spaces hs ha (r := ':' :: (b ++ (r ++ e ++ f))) (.inr ⟨_, rfl⟩)
    have hy : Spaces y := fun d hd => ha d (List.mem_append_right x hd)
    have all : s ++ (x ++ y) ++ [':'] ++ b ++ r ++ e = (s ++ x) ++ (y ++ (":".toList ++ (b ++ (r ++ e)))) := by simp
    refine ⟨e, f, rfl, ?_⟩
    rw [statement_eq_another, all]
    have head : Stops isSpace (r ++ e ++ f) := by
      rw [List.append_assoc]
      exact line_head hr _
    have rest : Takes True (do spaces; let rest ← statement; pure (Statement.sequence v rest)) (b ++ (r ++ e))
        (.sequence v w) f :=
      .bind (takes_spaces hb head) (hw.bind_nil takes_pure)
    have next : Takes True (another v) (y ++ (":".toList ++ (b ++ (r ++ e)))) (.sequence v w) f :=
      .bind (takes_spaces hy (by simp [isSpace])) (.bind (takes_literal _) rest)
    exact .bind (by simpa using hf) next.orElse

end Grammar

/-! ## (3) Whole texts -/

open Rule Grammar

/-- Where nothing aborts, a text has a tree if and only if it is a line with this tree and perhaps spaces at its end. So
    it is no line in two ways with different trees, although the rules never reconsider a choice. -/
theorem ofText_iff_reads {t : Text} (hf : ∀ e, Statement.ofText t = .error (.badText e) → e.fatal = false)
    (hd : ∀ count, Statement.ofText t ≠ .error (.tooManyDigits (some count))) :
    (∀ v, Statement.ofText t = .ok v ↔ Spelling.Reads t v) ∧
    (∀ v w, Spelling.Reads t v → Spelling.Reads t w → v = w) := by
  have finds : ∀ v, Spelling.Reads t v → Statement.ofText t = .ok v := by
    rintro v ⟨s, pad, rfl, hs, hp⟩
    obtain ⟨b, c, rfl, ht⟩ := takes_line hs hp
    have hc : Spaces c := fun d hd => hp d (List.mem_append_right b hd)
    have all : Takes True statement.whole (s ++ (b ++ c)) v [] := by
      rw [← List.append_assoc]
      refine .bind (by simpa using ht) ?_
      exact (takes_spaces hc (stops_nil _)).bind_nil (takes_endOfLine.bind_nil takes_pure)
    rcases all 0 with found | ⟨-, cause, aborted⟩
    · rw [List.append_nil] at found
      exact parse_eq_ok.mpr ⟨_, found⟩
    · rw [List.append_nil] at aborted
      have failed : Statement.ofText (s ++ (b ++ c)) = .error (.ofAbort cause) := by
        show statement.parseSpan 0 (s ++ (b ++ c)) = _
        simp only [parseSpan, aborted]
      cases cause with
      | unknownFunction offset name => cases hf _ failed
      | tooManyDigits count => exact absurd failed (hd count)
  have spells : ∀ v, Statement.ofText t = .ok v → Spelling.Reads t v := by
    intro v hv
    obtain ⟨s, pad, rfl, hp, hs⟩ := sound_statement.parse hv
    exact ⟨s, pad, rfl, hs, hp⟩
  refine ⟨fun v => ⟨spells v, finds v⟩, fun v w hv hw => ?_⟩
  have := (finds v hv).symm.trans (finds w hw)
  cases this
  rfl

/-- No keyword needs a space. -/
theorem ofText_glued :
    (∀ e, Statement.ofText "ONGGOTO5 ".toList = .error (.badText e) → e.fatal = false) ∧
      (∀ count, Statement.ofText "ONGGOTO5 ".toList ≠ .error (.tooManyDigits (some count))) ∧
      Statement.ofText "ONGGOTO5 ".toList = .ok (.onGoto 'G' [5]) ∧
      Spelling.Reads "ONGGOTO5 ".toList (.onGoto 'G' [5]) := by
  have tree : Statement.ofText "ONGGOTO5 ".toList = .ok (.onGoto 'G' [5]) := by rfl
  have noText : ∀ e, Statement.ofText "ONGGOTO5 ".toList = .error (.badText e) → e.fatal = false := by
    intro e he
    cases tree.symm.trans he
  have noDigits : ∀ count, Statement.ofText "ONGGOTO5 ".toList ≠ .error (.tooManyDigits (some count)) := by
    intro count he
    cases tree.symm.trans he
  exact ⟨noText, noDigits, tree, ((ofText_iff_reads noText noDigits).1 _).mp tree⟩

end LineBasic
