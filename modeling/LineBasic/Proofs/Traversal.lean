import LineBasic.Proofs.Composed

/-
  LineBasic.Proofs.Traversal — the runs of every rule of the grammar are composed.

  A recursive rule looks at itself only behind a literal text, where fewer characters are ahead, so the derivation of
  its runs is found by induction on their number. What a string expression finds ends before something that was missed
  (`probes_stringExpression`), so that an operand of INPUT may be refused afterwards. A remark is the only statement
  that reads to the end of the line whatever is there.
-/

namespace LineBasic

namespace Grammar

open Rule

variable {words : List String} {toEnd : Prop} {n : Nat} {expr atom operand : Rule Expression}

/-- The literal texts in arithmetic expressions. -/
def arithmeticWords : List String := ["(", ")", "-", ",", "*", "/", "+"]

theorem composed_level {op : BinaryOp} {symbol : String} (hs : symbol ∈ words) (hne : symbol.toList ≠ [])
    (ha : Advances operand) (h : ComposedBelow words toEnd n operand) :
    ComposedBelow words toEnd n (level op symbol operand) := by
  induction n with
  | zero => exact fun c hc => absurd hc (Nat.not_lt_zero _)
  | succ n ih =>
    have same : ComposedBelow words toEnd n (level op symbol operand) := ih (h.mono (Nat.le_succ n))
    rw [level_eq hne ha]
    refine h.bind ha fun left => .orElse (.bind .spaces advances_spaces fun _ => ?_) (.pure left)
    refine .behind_literal hs hne fun _ => .bind .spaces advances_spaces fun _ => ?_
    exact same.bind (advances_level hne ha) fun _ => .pure _

theorem composed_operators (hw : arithmeticWords ⊆ words) (ha : Advances atom) (h : ComposedBelow words toEnd n atom) :
    ComposedBelow words toEnd n (operators atom) := by
  have h1 : ComposedBelow words toEnd n (level .multiply "*" atom) :=
    composed_level (hw (by decide)) (by simp) ha h
  have a1 : Advances (level .multiply "*" atom) := advances_level (by simp) ha
  have h2 : ComposedBelow words toEnd n (level .divide "/" _) := composed_level (hw (by decide)) (by simp) a1 h1
  have a2 : Advances (level .divide "/" (level .multiply "*" atom)) := advances_level (by simp) a1
  have h3 : ComposedBelow words toEnd n (level .add "+" _) := composed_level (hw (by decide)) (by simp) a2 h2
  have a3 : Advances (level .add "+" (level .divide "/" (level .multiply "*" atom))) := advances_level (by simp) a2
  exact composed_level (hw (by decide)) (by simp) a3 h3

/-- Inside parentheses fewer characters are ahead. -/
theorem composed_parenthesised (hw : arithmeticWords ⊆ words) (he : Advances expr)
    (h : ComposedBelow words toEnd n expr) : ComposedBelow words toEnd (n + 1) (parenthesised expr) := by
  refine .behind_literal (hw (by decide)) (by simp) fun _ => .bind .spaces advances_spaces fun _ => h.bind he fun _ => ?_
  exact .bind .spaces advances_spaces fun _ =>
    .bind (.literal (hw (by decide))) (advances_literal _) fun _ => .pure _

/-- A call begins with the parenthesis behind its name. -/
theorem functionCall_eq : functionCall expr = (do
    let start ← here
    let name ← functionName
    match builtIn? name with
    | some function => literal "(" >>= fun _ => do
        spaces
        let inner ← expr
        spaces; literal ")"
        pure (.call function inner)
    | none => abort (.unknownFunction start.offset name)) := by
  unfold functionCall
  congr 1
  funext start
  congr 1
  funext name
  cases builtIn? name with
  | none => rfl
  | some function => simp only [parenthesised, bind_assoc, pure_bind]

theorem composed_functionCall (hw : arithmeticWords ⊆ words) (he : Advances expr)
    (h : ComposedBelow words toEnd n expr) : ComposedBelow words toEnd (n + 1) (functionCall expr) := by
  intro c hc
  rw [functionCall_eq]
  refine .call (hw (by decide)) fun name d function hd _ => ?_
  have hlen := sound_functionName.advances.length_le hd
  refine ComposedBelow.behind_literal (n := n) (hw (by decide)) (by simp) (fun _ => ?_) d (by omega)
  refine .bind .spaces advances_spaces fun _ => h.bind he fun _ => .bind .spaces advances_spaces fun _ => ?_
  exact .bind (.literal (hw (by decide))) (advances_literal _) fun _ => .pure _

theorem composed_negation (hw : arithmeticWords ⊆ words) (ha : Advances atom) (h : ComposedBelow words toEnd n atom) :
    ComposedBelow words toEnd (n + 1) (negation atom) :=
  .behind_literal (hw (by decide)) (by simp) fun _ => .bind .spaces advances_spaces fun _ =>
    h.bind ha fun _ => .pure _

theorem composed_arrayReferenceOf (hw : arithmeticWords ⊆ words) (he : Advances expr)
    (h : ComposedBelow words toEnd n expr) : ComposedBelow words toEnd (n + 1) (arrayReferenceOf expr) := by
  have indices : ComposedBelow words toEnd n (separated "," expr <|> pure []) :=
    .orElse (.separated (hw (by decide)) (by simp) he h) (.pure [])
  refine .bind .letter advances_letter fun name => .behind_literal (hw (by decide)) (by simp) fun _ => ?_
  refine .bind .spaces advances_spaces fun _ => indices.bind ?_ fun _ => .bind .spaces advances_spaces fun _ => ?_
  · exact (advances_separated (by simp) he).orElse (advances_pure [])
  · exact .bind (.literal (hw (by decide))) (advances_literal _) fun _ => .pure _

theorem composed_atomOf (hw : arithmeticWords ⊆ words) (he : Advances expr) (h : ComposedBelow words toEnd n expr) :
    ComposedBelow words toEnd (n + 1) (atomOf expr) := by
  -- Only a negation has an atom inside, behind its sign.
  suffices all : ∀ m, m ≤ n + 1 → ComposedBelow words toEnd m (atomOf expr) from all (n + 1) (Nat.le_refl _)
  intro m
  induction m with
  | zero => exact fun _ c hc => absurd hc (Nat.not_lt_zero _)
  | succ m ih =>
    intro hm
    have inner : ComposedBelow words toEnd m expr := h.mono (by omega)
    rw [atomOf_eq he]
    refine .firstOf (by simp [atomAlternatives]) fun p hp => ?_
    simp only [atomAlternatives, List.mem_cons, List.not_mem_nil, or_false] at hp
    rcases hp with rfl | rfl | rfl | rfl | rfl | rfl | rfl
    · exact composed_parenthesised hw he inner
    · exact composed_functionCall hw he inner
    · exact composed_negation hw (advances_atomOf he) (ih (by omega))
    · exact fun c _ => .bind (.real c) fun x d _ => .pure _ d
    · exact .bind .integer advances_integer fun _ => .pure _
    · exact (composed_arrayReferenceOf hw he inner).bind (advances_arrayReferenceOf he) fun _ => .pure _
    · exact .bind .letter advances_letter fun _ => .pure _

theorem composed_expression (hw : arithmeticWords ⊆ words) (n : Nat) : ComposedBelow words toEnd n expression := by
  induction n with
  | zero => exact fun c hc => absurd hc (Nat.not_lt_zero _)
  | succ n ih =>
    rw [expression_eq]
    exact composed_operators hw (advances_atomOf advances_expression) (composed_atomOf hw advances_expression ih)

theorem composed_arrayReference (hw : arithmeticWords ⊆ words) : ComposedBelow words toEnd n arrayReference :=
  (composed_arrayReferenceOf hw advances_expression (composed_expression hw n)).mono (Nat.le_succ n)

/-! ## Strings -/

/-- The literal texts in single statements. -/
def statementWords : List String :=
  arithmeticWords ++ ["TAB(", ";", "<>", "<=", ">=", "=", "<", ">", "AND", "OR", "REM", "PRINT", "LET", "END", "GOTO",
    "GOSUB", "IF", "THEN", "FOR", "TO", "STEP", "NEXT", "INPUT", "RETURN", "DIM", "ON"]

/-- The literal texts in lines. -/
def lineWords : List String := ":" :: statementWords

theorem arithmetic_subset (hw : statementWords ⊆ words) : arithmeticWords ⊆ words :=
  fun _ h => hw (List.mem_append_left _ h)

theorem composed_fragment (hw : statementWords ⊆ words) : ComposedBelow words toEnd n fragment := by
  refine .firstOf (by simp) fun p hp => ?_
  simp only [List.mem_cons, List.not_mem_nil, or_false] at hp
  rcases hp with rfl | rfl | rfl
  · exact fun c _ => .bind (.quoted c) fun _ d _ => .pure _ d
  · refine .bind (.literal (hw (by decide))) (advances_literal _) fun _ => .bind .spaces advances_spaces fun _ => ?_
    refine .bind .integer advances_integer fun _ => .bind .spaces advances_spaces fun _ => ?_
    exact .bind (.literal (hw (by decide))) (advances_literal _) fun _ => .pure _
  · exact (composed_expression (arithmetic_subset hw) n).bind advances_expression fun _ => .pure _

theorem composed_stringBody (hw : statementWords ⊆ words) : ComposedBelow words toEnd n stringBody := by
  induction n with
  | zero => exact fun c hc => absurd hc (Nat.not_lt_zero _)
  | succ n ih =>
    have tail (word : String) (h : word ∈ words) (hne : word.toList ≠ []) (g : StringExpression → StringExpression) :
        ComposedBelow words toEnd (n + 1) (do literal word; spaces; let right ← stringBody; pure (g right)) :=
      .behind_literal h hne fun _ => .bind .spaces advances_spaces fun _ =>
        .bind ih advances_stringBody fun _ => .pure _
    rw [stringBody_eq]
    refine (composed_fragment hw).bind advances_fragment fun left => .orElse ?_ (.orElse ?_ (.pure left))
    · exact tail ";" (hw (by decide)) (by simp) _
    · exact tail "," (hw (by decide)) (by simp) _

theorem composed_stringExpression (hw : statementWords ⊆ words) : ComposedBelow words toEnd n stringExpression := by
  refine (composed_stringBody hw).bind advances_stringBody fun body => .orElse ?_ (.orElse ?_ (.pure body))
  · exact .bind (.literal (hw (by decide))) (advances_literal _) fun _ => .pure _
  · exact .bind (.literal (hw (by decide))) (advances_literal _) fun _ => .pure _

theorem missing_probes {p : Rule α} {c : Cursor} (h : Composed words toEnd p c) (hm : (p.run c).outcome = .missing) :
    ∃ m ∈ (p.run c).misses, c.offset ≤ m.offset := by
  obtain ⟨m, misses, hms⟩ := List.exists_cons_of_ne_nil (h.attentive.missing hm)
  have first : m ∈ (p.run c).misses := hms ▸ List.mem_cons_self
  exact ⟨m, first, (h.attentive.between first).1⟩

/-- Where literal text is ahead, a rule that begins with it and finds nothing misses something behind it. -/
theorem missing_behind {word : String} {f : Unit → Rule α} {c : Cursor} (hp : word.toList <+: c.rest)
    (hf : ∀ d, Composed words toEnd (f ()) d) (hm : ((literal word >>= f).run c).outcome = .missing) :
    ∃ m ∈ ((literal word >>= f).run c).misses, c.offset + word.toList.length ≤ m.offset := by
  have reply : (literal word >>= f).run c = (f ()).run (c.advance word.toList.length) := by
    rw [run_bind, run_literal hp]
    rfl
  rw [reply] at hm ⊢
  exact missing_probes (hf _) hm

/-- Something is missed at the cursor or behind it, and if a separator is there, behind that. -/
def Probes (misses : List Miss) (d : Cursor) : Prop :=
  (∃ m ∈ misses, d.offset ≤ m.offset) ∧
    ∀ word ∈ [";", ","], word.toList <+: d.rest → ∃ m ∈ misses, d.offset + 1 ≤ m.offset

theorem Probes.mono {misses misses' : List Miss} {d : Cursor} (h : Probes misses d) (hs : misses ⊆ misses') :
    Probes misses' d :=
  ⟨h.1.imp fun _ hm => ⟨hs hm.1, hm.2⟩, fun word hw hp => (h.2 word hw hp).imp fun _ hm => ⟨hs hm.1, hm.2⟩⟩

/-- A separator, spaces, and a body. -/
def bodyBehind (word : String) (join : StringExpression → StringExpression) : Rule StringExpression := do
  literal word; spaces
  let right ← stringBody
  pure (join right)

theorem stringBody_eq_behind : stringBody = (do
    let left ← fragment
    bodyBehind ";" (.concat left) <|> bodyBehind "," (.concatTab left) <|> pure left) := stringBody_eq

theorem composed_behind (join : StringExpression → StringExpression) (d : Cursor) :
    Composed lineWords False (do spaces; let right ← stringBody; pure (join right)) d := by
  refine .bind (.spaces _) fun _ _ _ => .bind ?_ fun _ _ _ => .pure _ _
  exact composed_stringBody (fun _ => List.mem_cons_of_mem _) _ (Nat.lt_succ_self _)

/-- Where no body is behind either separator, both have been tried. -/
theorem probes_last {join join' : StringExpression → StringExpression} {left : StringExpression} {d : Cursor}
    (h : ((bodyBehind ";" join).run d).outcome = .missing) (h' : ((bodyBehind "," join').run d).outcome = .missing) :
    Probes ((bodyBehind ";" join <|> bodyBehind "," join' <|> pure left).run d).misses d := by
  have all : ((bodyBehind ";" join <|> bodyBehind "," join' <|> pure left).run d).misses =
      ((bodyBehind ";" join).run d).misses ++ ((bodyBehind "," join').run d).misses := by
    rw [run_orElse_missing h]
    simp only [Reply.after, run_orElse_missing h', run_pure, List.append_nil]
  rw [all]
  have tried : Composed lineWords False (bodyBehind ";" join) d :=
    .bind (.literal d (by decide)) fun _ _ _ => composed_behind join _
  obtain ⟨m, hm, ho⟩ := missing_probes tried h
  refine ⟨⟨m, List.mem_append_left _ hm, ho⟩, fun word hw hp => ?_⟩
  simp only [List.mem_cons, List.not_mem_nil, or_false] at hw
  rcases hw with rfl | rfl
  · obtain ⟨m, hm, ho⟩ := missing_behind hp (composed_behind join) h
    exact ⟨m, List.mem_append_left _ hm, ho⟩
  · obtain ⟨m, hm, ho⟩ := missing_behind hp (composed_behind join') h'
    exact ⟨m, List.mem_append_right _ hm, ho⟩

/-- What a body finds ends before something that was missed. A separator behind it was tried too. -/
theorem probes_stringBody (c d : Cursor) (v : StringExpression) (h : (stringBody.run c).outcome = .found v d) :
    Probes (stringBody.run c).misses d := by
  -- A body behind a separator is shorter, and the last body is a fragment with both separators missing behind it.
  induction hn : c.rest.length using Nat.strongRecOn generalizing c d v with
  | ind n ih =>
    have behind {word : String} {join : StringExpression → StringExpression} {e : Cursor} (he : e.rest.length ≤ n)
        (hne : word.toList ≠ []) (hf : ((bodyBehind word join).run e).outcome = .found v d) :
        Probes ((bodyBehind word join).run e).misses d := by
      obtain ⟨_, e₁, h₁, hf⟩ := found_bind.mp hf
      obtain ⟨_, e₂, h₂, hf⟩ := found_bind.mp hf
      obtain ⟨right, e₃, h₃, hf⟩ := found_bind.mp hf
      cases hf
      have shorter : e₂.rest.length < n := by
        have l₂ := advances_spaces.length_le h₂
        obtain ⟨s, hs, rfl⟩ := sound_literal word e _ e₁ h₁
        have hlen := congrArg List.length hs.1
        have hpos := List.length_pos_iff.mpr hne
        rw [List.length_append] at hlen
        omega
      refine (ih _ shorter e₂ _ right h₃ rfl).mono fun m hm => ?_
      unfold bodyBehind
      rw [run_bind_found h₁, run_bind_found h₂, run_bind_found h₃]
      simp [Reply.after, hm]
    rw [stringBody_eq_behind] at h ⊢
    obtain ⟨left, e, he, h⟩ := found_bind.mp h
    have hlen := advances_fragment.length_le he
    rw [run_bind_found he]
    refine Probes.mono ?_ (List.subset_append_right _ _)
    rcases found_orElse.mp h with h₁ | ⟨h₁, h'⟩
    · rw [run_orElse_found h₁]
      exact behind (by omega) (by simp) h₁
    rcases found_orElse.mp h' with h₂ | ⟨h₂, h''⟩
    · rw [run_orElse_missing h₁]
      refine Probes.mono ?_ (List.subset_append_right _ _)
      rw [run_orElse_found h₂]
      exact behind (by omega) (by simp) h₂
    · cases h''
      exact probes_last h₁ h₂

theorem probes_stringExpression (c d : Cursor) (v : StringExpression)
    (h : (stringExpression.run c).outcome = .found v d) : ∃ m ∈ (stringExpression.run c).misses, d.offset ≤ m.offset := by
  obtain ⟨body, e, he, h⟩ := found_bind.mp h
  have probes := probes_stringBody c e body he
  have reply := run_bind_found (f := fun body => (do literal ","; pure (.trailingTab body)) <|>
    (do literal ";"; pure (.suppressNewline body)) <|> pure body) he
  have separated (word : String) (hw : word ∈ [";", ","]) (w : StringExpression)
      (hf : ((do literal word; pure w : Rule StringExpression).run e).outcome = .found v d) :
      ∃ m ∈ (stringBody.run c).misses, d.offset ≤ m.offset := by
    obtain ⟨_, e₁, h₁, hf⟩ := found_bind.mp hf
    cases hf
    obtain ⟨s, hs, rfl⟩ := sound_literal word e _ d h₁
    obtain ⟨m, hm, ho⟩ := probes.2 word hw ⟨d.rest, hs.1.symm⟩
    have one : word.toList.length = 1 := by
      simp only [List.mem_cons, List.not_mem_nil, or_false] at hw
      rcases hw with rfl | rfl <;> rfl
    exact ⟨m, hm, by rw [hs.2]; omega⟩
  have found : ∃ m ∈ (stringBody.run c).misses, d.offset ≤ m.offset := by
    rcases found_orElse.mp h with h | ⟨-, h⟩
    · exact separated "," (by simp) _ h
    rcases found_orElse.mp h with h | ⟨-, h⟩
    · exact separated ";" (by simp) _ h
    · cases h
      exact probes.1
  obtain ⟨m, hm, ho⟩ := found
  refine ⟨m, ?_, ho⟩
  show m ∈ ((stringBody >>= _).run c).misses
  rw [reply]
  exact List.mem_append_left _ hm

/-! ## Conditions -/

theorem composed_comparison (hw : statementWords ⊆ words) : ComposedBelow words toEnd n comparison := by
  have expr : ComposedBelow words toEnd n expression := composed_expression (arithmetic_subset hw) n
  have operator : ComposedBelow words toEnd n comparisonOperator := by
    refine .firstOf (by simp) fun p hp => ?_
    simp only [List.mem_cons, List.not_mem_nil, or_false] at hp
    rcases hp with rfl | rfl | rfl | rfl | rfl | rfl <;>
      exact .bind (.literal (hw (by decide))) (advances_literal _) fun _ => .pure _
  have advances : Advances comparisonOperator := by
    refine .firstOf fun p hp => ?_
    simp only [List.mem_cons, List.not_mem_nil, or_false] at hp
    rcases hp with rfl | rfl | rfl | rfl | rfl | rfl <;> exact (advances_literal _).bind fun _ => advances_pure _
  refine expr.bind advances_expression fun left => .bind .spaces advances_spaces fun _ => operator.bind advances fun op => ?_
  exact .bind .spaces advances_spaces fun _ => expr.bind advances_expression fun _ => .pure _

theorem composed_joined {op : Connective} {word : String} {left : Condition} {right : Rule Condition} (h : word ∈ words)
    (hne : word.toList ≠ []) (ha : Advances right) (hr : ComposedBelow words toEnd n right) :
    ComposedBelow words toEnd (n + 1) (joined op word left right) :=
  .bind .spaces advances_spaces fun _ => .behind_literal h hne fun _ => .bind .spaces advances_spaces fun _ =>
    hr.bind ha fun _ => .pure _

theorem composed_conjunction (hw : statementWords ⊆ words) : ComposedBelow words toEnd n conjunction := by
  induction n with
  | zero => exact fun c hc => absurd hc (Nat.not_lt_zero _)
  | succ n ih =>
    rw [conjunction_eq]
    refine (composed_comparison hw).bind advances_comparison fun left => .orElse ?_ (.pure left)
    exact composed_joined (hw (by decide)) (by simp) advances_conjunction ih

theorem composed_condition (hw : statementWords ⊆ words) : ComposedBelow words toEnd n condition := by
  induction n with
  | zero => exact fun c hc => absurd hc (Nat.not_lt_zero _)
  | succ n ih =>
    rw [condition_eq]
    refine (composed_comparison hw).bind advances_comparison fun left => .orElse ?_ (.orElse ?_ (.pure left))
    · exact composed_joined (hw (by decide)) (by simp) advances_conjunction (composed_conjunction hw)
    · exact composed_joined (hw (by decide)) (by simp) advances_condition ih

/-! ## Statements -/

theorem composed_target (hw : arithmeticWords ⊆ words) : ComposedBelow words toEnd n target := by
  refine .firstOf (by simp) fun p hp => ?_
  simp only [List.mem_cons, List.not_mem_nil, or_false] at hp
  rcases hp with rfl | rfl
  · exact (composed_arrayReference hw).bind advances_arrayReference fun _ => .pure _
  · exact .bind .letter advances_letter fun _ => .pure _

theorem composed_assignStatement (hw : statementWords ⊆ words) : ComposedBelow words toEnd n assignStatement := by
  refine .bind (.succeeds (.keyword (hw (by decide))) (advances_keyword _)) ?_ fun _ => ?_
  · exact ((advances_keyword _).bind fun _ => advances_pure true).orElse (advances_pure false)
  refine (composed_target (arithmetic_subset hw)).bind advances_target fun target => .bind .spaces advances_spaces fun _ => ?_
  refine .bind (.literal (hw (by decide))) (advances_literal _) fun _ => .bind .spaces advances_spaces fun _ => ?_
  exact (composed_expression (arithmetic_subset hw) n).bind advances_expression fun _ => .pure _

theorem composed_ifStatement (hw : statementWords ⊆ words) : ComposedBelow words toEnd n ifStatement := by
  refine .bind (.keyword (hw (by decide))) (advances_keyword _) fun _ => ?_
  refine (composed_condition hw).bind advances_condition fun test => .bind .spaces advances_spaces fun _ => ?_
  exact .bind (.keyword (hw (by decide))) (advances_keyword _) fun _ => .bind .integer advances_integer fun _ => .pure _

theorem composed_stepClause (hw : statementWords ⊆ words) : ComposedBelow words toEnd n stepClause := by
  have step : ComposedBelow words toEnd n (do spaces; keyword "STEP") :=
    .bind .spaces advances_spaces fun _ => .keyword (hw (by decide))
  have advances : Advances (do spaces; keyword "STEP") := advances_spaces.bind fun _ => advances_keyword _
  refine (step.succeeds advances).bind ?_ fun b => ?_
  · exact (advances.bind fun _ => advances_pure true).orElse (advances_pure false)
  · split
    · exact composed_expression (arithmetic_subset hw) n
    · exact .pure _

theorem composed_forStatement (hw : statementWords ⊆ words) : ComposedBelow words toEnd n forStatement := by
  have expr : ComposedBelow words toEnd n expression := composed_expression (arithmetic_subset hw) n
  refine .bind (.keyword (hw (by decide))) (advances_keyword _) fun _ => .bind .letter advances_letter fun counter => ?_
  refine .bind .spaces advances_spaces fun _ => .bind (.literal (hw (by decide))) (advances_literal _) fun _ => ?_
  refine .bind .spaces advances_spaces fun _ => expr.bind advances_expression fun start => ?_
  refine .bind .spaces advances_spaces fun _ => .bind (.keyword (hw (by decide))) (advances_keyword _) fun _ => ?_
  refine expr.bind advances_expression fun stop => (composed_stepClause hw).bind advances_stepClause fun _ => .pure _

/-- An operand of another shape is refused after it has been read. -/
theorem composed_inputStatement (hw : statementWords ⊆ words) : ComposedBelow words toEnd n inputStatement := by
  refine .bind (.keyword (hw (by decide))) (advances_keyword _) fun _ => fun c hc => ?_
  refine .checked (composed_stringExpression hw c hc) (fun v d => probes_stringExpression c d v) fun operand => ?_
  cases inputOperand? operand with
  | some read => exact .inl ⟨.input read.1 read.2, fun _ => rfl⟩
  | none => exact .inr fun _ => rfl

theorem composed_onGotoStatement (hw : statementWords ⊆ words) : ComposedBelow words toEnd n onGotoStatement := by
  refine .bind (.keyword (hw (by decide))) (advances_keyword _) fun _ => .bind .letter advances_letter fun selector => ?_
  refine .bind .spaces advances_spaces fun _ => .bind (.keyword (hw (by decide))) (advances_keyword _) fun _ => ?_
  refine .bind (.separated (hw (by decide)) (by simp) advances_integer .integer) ?_ fun _ => .pure _
  exact advances_separated (by simp) advances_integer

/-- Every statement but a remark keeps to its own text. -/
theorem composed_statementRules (hw : statementWords ⊆ words) :
    ∀ p ∈ statementRules.tail, ComposedBelow words toEnd n p := by
  intro p hp
  simp only [statementRules, List.tail_cons, List.mem_cons, List.not_mem_nil, or_false] at hp
  rcases hp with rfl | rfl | rfl | rfl | rfl | rfl | rfl | rfl | rfl | rfl | rfl | rfl
  · refine .bind (.keyword (hw (by decide))) (advances_keyword _) fun _ => ?_
    refine .bind (.orElse (composed_stringExpression hw) (.pure _)) ?_ fun _ => .pure _
    exact advances_stringExpression.orElse (advances_pure _)
  · exact composed_assignStatement hw
  · exact .bind (.literal (hw (by decide))) (advances_literal _) fun _ => .pure _
  · exact .bind (.keyword (hw (by decide))) (advances_keyword _) fun _ => .bind .integer advances_integer fun _ => .pure _
  · exact .bind (.keyword (hw (by decide))) (advances_keyword _) fun _ => .bind .integer advances_integer fun _ => .pure _
  · exact composed_ifStatement hw
  · exact composed_forStatement hw
  · refine .bind (.keyword (hw (by decide))) (advances_keyword _) fun _ => ?_
    refine .bind (.separated (hw (by decide)) (by simp) advances_letter .letter) ?_ fun _ => .pure _
    exact advances_separated (by simp) advances_letter
  · exact composed_inputStatement hw
  · exact .bind (.literal (hw (by decide))) (advances_literal _) fun _ => .pure _
  · refine .bind (.keyword (hw (by decide))) (advances_keyword _) fun _ => ?_
    have element : ComposedBelow words toEnd n arrayReference := composed_arrayReference (arithmetic_subset hw)
    refine .bind (.separated (hw (by decide)) (by simp) advances_arrayReference element) ?_ fun _ => .pure _
    exact advances_separated (by simp) advances_arrayReference
  · exact composed_onGotoStatement hw

theorem composed_remarkStatement (hw : statementWords ⊆ words) (c : Cursor) :
    Composed words True remarkStatement c :=
  .bind (.literal c (hw (by decide))) fun _ d _ => .bind (.restOfLine d trivial) fun _ e _ => .pure _ e

theorem composed_single (hw : statementWords ⊆ words) : ComposedBelow words True n (firstOf statementRules) := by
  refine .firstOf (by simp [statementRules]) fun p hp => ?_
  rcases List.mem_cons.mp hp with rfl | hp
  · exact fun c _ => composed_remarkStatement hw c
  · exact composed_statementRules hw p hp

theorem advances_statement : Advances statement := advances_fix (guarded_statementOf advances_statementRules).advances

theorem composed_statement (n : Nat) : ComposedBelow lineWords True n statement := by
  induction n with
  | zero => exact fun c hc => absurd hc (Nat.not_lt_zero _)
  | succ n ih =>
    have single : ComposedBelow lineWords True (n + 1) (firstOf statementRules) :=
      composed_single fun _ => List.mem_cons_of_mem _
    rw [statement_eq]
    refine single.bind (.firstOf advances_statementRules) fun first => .orElse ?_ (.pure first)
    refine .bind .spaces advances_spaces fun _ => .behind_literal (by decide) (by simp) fun _ => ?_
    exact .bind .spaces advances_spaces fun _ => ih.bind advances_statement fun _ => .pure _

end Grammar

end LineBasic
