import LineBasic.Grammar.Statement
import LineBasic.Proofs.Lexemes

/-
  LineBasic.Proofs.Recursion — every recursive rule of the grammar is its own body.

  A rule made by `fix` is its body with itself inside if the body is guarded. The bodies here are: each reads a literal
  text before it looks at its inner rule. So the rounds of the recursion can be forgotten, and the grammar holds as the
  equations in which it is written.
-/

namespace LineBasic

namespace Rule

variable {α β : Type} {n : Nat} {p q : Rule α}

/-! ## Rules that agree on short texts -/

theorem Agree.refl (n : Nat) (p : Rule α) : Agree n p p := fun _ _ => rfl

theorem Agree.mono {m : Nat} (h : Agree n p q) (hm : m ≤ n) : Agree m p q := fun c hc => h c (by omega)

/-- What comes after `p` has to agree on the texts that `p` may leave. -/
theorem Agree.bind {L : Text → α → Prop} {f g : α → Rule β} (hp : Sound p L) (h : Agree n p q)
    (hf : ∀ s v, L s v → Agree (n - s.length) (f v) (g v)) : Agree n (p >>= f) (q >>= g) := by
  intro c hc
  rw [run_bind, run_bind, ← h c hc]
  unfold Reply.andThen
  split
  · rename_i v d hv
    obtain ⟨s, hs, hL⟩ := hp c v d hv
    have hlen := congrArg List.length hs.1
    rw [List.length_append] at hlen
    exact congrArg (Reply.after _) (hf s v hL d (by omega))
  · rfl
  · rfl

theorem Agree.behind {f g : α → Rule β} (hp : Advances p) (hf : ∀ v, Agree n (f v) (g v)) :
    Agree n (p >>= f) (p >>= g) :=
  .bind hp.sound (.refl n p) fun _ v _ => (hf v).mono (by omega)

/-- Behind literal text fewer characters are ahead. -/
theorem agree_literal {f g : Unit → Rule β} {spelling : String} (hs : spelling.toList ≠ [])
    (hf : ∀ v, Agree n (f v) (g v)) : Agree (n + 1) (literal spelling >>= f) (literal spelling >>= g) := by
  refine .bind (sound_literal spelling) (.refl _ _) fun s v h => (hf v).mono ?_
  have hpos := List.length_pos_iff.mpr hs
  rw [h]
  omega

theorem Agree.orElse {p' q' : Rule α} (h : Agree n p q) (h' : Agree n p' q') : Agree n (p <|> p') (q <|> q') := by
  intro c hc
  rw [run_orElse, run_orElse, h c hc, h' c hc]

theorem Agree.fix {body body' : Rule α → Rule α} (ha : ∀ p, Advances p → Advances (body p))
    (h : ∀ p q, Advances p → Agree n p q → Agree n (body p) (body' q)) : Agree n (fix body) (fix body') := by
  have hr : ∀ fuel, Agree n ⟨rounds body fuel⟩ ⟨rounds body' fuel⟩ := by
    intro fuel
    induction fuel with
    | nil => exact h fail fail advances_fail (.refl n fail)
    | cons _ fuel ih => exact h ⟨rounds body fuel⟩ ⟨rounds body' fuel⟩ (advances_rounds ha fuel) ih
  exact fun c hc => hr c.rest c hc

/-! ## Lists -/

/-- A separator with spaces around it. -/
def between (separator : String) : Rule Unit := do
  spaces; literal separator; spaces

theorem sound_separator (separator : String) :
    Sound (between separator) fun s _ => separator.toList.length ≤ s.length := by
  refine sound_spaces.bind fun _ _ _ => (sound_literal separator).bind fun _ _ h => sound_spaces.mono fun _ _ _ => ?_
  simp [h]
  omega

/-- An item, and behind a separator the list of the others. -/
def listOf (separator : String) (item : Rule α) (items : Rule (List α)) : Rule (List α) := do
  let first ← item
  if ← succeeds (between separator) then
    let others ← items
    pure (first :: others)
  else pure [first]

/-- The others are behind an item and a separator, of which one is not empty. -/
theorem guarded_listOf {separator : String} {item : Rule α} {L : Text → α → Prop} (hi : Sound item L)
    (hs : ∀ s v, L s v → s ++ separator.toList ≠ []) : Guarded (listOf separator item) where
  advances := by
    intro p hp
    refine hi.advances.bind fun first => (sound_separator separator).succeeds.advances.bind fun b => ?_
    split
    · exact hp.bind fun _ => advances_pure _
    · exact advances_pure _
  agree := by
    intro n p q hp hq h
    refine .bind hi (.refl _ _) fun s first hL => .bind (sound_separator separator).succeeds (.refl _ _) fun t b hb => ?_
    cases b with
    | true =>
      have hpos := List.length_pos_iff.mpr (hs s first hL)
      have hlen : separator.toList.length ≤ t.length := hb
      rw [List.length_append] at hpos
      exact (h.mono (by omega)).bind hp.sound fun _ _ _ => .refl _ _
    | false => exact .refl _ _

theorem guarded_separated {separator : String} {item : Rule α} (hs : separator.toList ≠ []) (hi : Advances item) :
    Guarded (listOf separator item) :=
  guarded_listOf hi.sound fun s _ _ => List.append_ne_nil_of_right_ne_nil s hs

theorem advances_separated {separator : String} {item : Rule α} (hs : separator.toList ≠ []) (hi : Advances item) :
    Advances (separated separator item) :=
  advances_fix (guarded_separated hs hi).advances

theorem agree_separated {separator : String} {item item' : Rule α} (hs : separator.toList ≠ []) (hi : Advances item)
    (h : Agree n item item') : Agree n (separated separator item) (separated separator item') := by
  refine .fix (guarded_separated hs hi).advances fun p q hp hpq => ?_
  refine h.bind hi.sound fun _ first _ => .behind (sound_separator separator).succeeds.advances fun b => ?_
  split
  · exact (hpq.mono (by omega)).bind hp.sound fun _ _ _ => .refl _ _
  · exact .refl _ _

theorem separated_eq {separator : String} {item : Rule α} (hs : separator.toList ≠ []) (hi : Advances item) :
    separated separator item = (do
      let first ← item
      if ← succeeds (do spaces; literal separator; spaces) then
        let others ← separated separator item
        pure (first :: others)
      else pure [first]) :=
  fix_eq (guarded_separated hs hi)

end Rule

/-! ## Arithmetic -/

namespace Grammar

open Rule

variable {operand atom expr : Rule Expression} {op : BinaryOp} {symbol : String}

theorem guarded_level (hs : symbol.toList ≠ []) (ho : Advances operand) :
    Guarded fun same => do
      let left ← operand
      (do spaces; literal symbol; spaces; let right ← same; pure (.binary op left right)) <|> pure left where
  advances := by
    intro p hp
    refine ho.bind fun left => .orElse (advances_spaces.bind fun _ => ?_) (advances_pure left)
    exact (advances_literal symbol).bind fun _ => advances_spaces.bind fun _ => hp.bind fun _ => advances_pure _
  agree := by
    intro n p q hp hq h
    refine .behind ho fun left => .orElse (.behind advances_spaces fun _ => ?_) (.refl _ _)
    exact agree_literal hs fun _ => .behind advances_spaces fun _ => h.bind hp.sound fun _ _ _ => .refl _ _

theorem level_eq (hs : symbol.toList ≠ []) (ho : Advances operand) :
    level op symbol operand = (do
      let left ← operand
      (do spaces; literal symbol; spaces; let right ← level op symbol operand; pure (.binary op left right))
        <|> pure left) :=
  fix_eq (guarded_level hs ho)

theorem advances_level (hs : symbol.toList ≠ []) (ho : Advances operand) : Advances (level op symbol operand) :=
  advances_fix (guarded_level hs ho).advances

theorem agree_level {n : Nat} {operand' : Rule Expression} (hs : symbol.toList ≠ []) (ho : Advances operand)
    (h : Agree n operand operand') : Agree n (level op symbol operand) (level op symbol operand') := by
  refine .fix (guarded_level hs ho).advances fun p q hp hpq => ?_
  refine h.bind ho.sound fun _ left _ => Agree.mono (n := n) ?_ (by omega)
  refine .orElse (.behind advances_spaces fun _ => .behind (advances_literal symbol) fun _ => ?_) (.refl _ _)
  exact .behind advances_spaces fun _ => hpq.bind hp.sound fun _ _ _ => .refl _ _

theorem advances_operators (ha : Advances atom) : Advances (operators atom) :=
  advances_level (by simp) (advances_level (by simp) (advances_level (by simp) (advances_level (by simp) ha)))

theorem agree_operators {n : Nat} {atom' : Rule Expression} (ha : Advances atom) (h : Agree n atom atom') :
    Agree n (operators atom) (operators atom') := by
  unfold operators
  have hm : Advances (level .multiply "*" atom) := advances_level (by simp) ha
  have hd : Advances (level .divide "/" (level .multiply "*" atom)) := advances_level (by simp) hm
  refine agree_level (by simp) (advances_level (by simp) hd) (agree_level (by simp) hd ?_)
  exact agree_level (by simp) hm (agree_level (by simp) ha h)

theorem advances_parenthesised (he : Advances expr) : Advances (parenthesised expr) := by
  refine (advances_literal "(").bind fun _ => advances_spaces.bind fun _ => he.bind fun _ => ?_
  exact advances_spaces.bind fun _ => (advances_literal ")").bind fun _ => advances_pure _

theorem agree_parenthesised {n : Nat} {expr' : Rule Expression} (he : Advances expr) (h : Agree n expr expr') :
    Agree (n + 1) (parenthesised expr) (parenthesised expr') :=
  agree_literal (by simp) fun _ => .behind advances_spaces fun _ => h.bind he.sound fun _ _ _ => .refl _ _

theorem advances_functionCall (he : Advances expr) : Advances (functionCall expr) := by
  refine advances_here.bind fun start => sound_functionName.advances.bind fun name => ?_
  split
  · exact (advances_parenthesised he).bind fun _ => advances_pure _
  · exact advances_abort _

theorem agree_functionCall {n : Nat} {expr' : Rule Expression} (he : Advances expr) (h : Agree n expr expr') :
    Agree (n + 1) (functionCall expr) (functionCall expr') := by
  refine .behind advances_here fun start => .behind sound_functionName.advances fun name => ?_
  cases builtIn? name with
  | some function => exact (agree_parenthesised he h).bind (advances_parenthesised he).sound fun _ _ _ => .refl _ _
  | none => exact .refl _ _

theorem advances_negation (ha : Advances atom) : Advances (negation atom) :=
  (advances_literal "-").bind fun _ => advances_spaces.bind fun _ => ha.bind fun _ => advances_pure _

theorem agree_negation {n : Nat} {atom' : Rule Expression} (ha : Advances atom) (h : Agree n atom atom') :
    Agree (n + 1) (negation atom) (negation atom') :=
  agree_literal (by simp) fun _ => .behind advances_spaces fun _ => h.bind ha.sound fun _ _ _ => .refl _ _

theorem advances_arrayReferenceOf (he : Advances expr) : Advances (arrayReferenceOf expr) := by
  refine advances_letter.bind fun name => (advances_literal "(").bind fun _ => advances_spaces.bind fun _ => ?_
  refine ((advances_separated (by simp) he).orElse (advances_pure [])).bind fun indices => advances_spaces.bind fun _ => ?_
  exact (advances_literal ")").bind fun _ => advances_pure _

theorem agree_arrayReferenceOf {n : Nat} {expr' : Rule Expression} (he : Advances expr) (h : Agree n expr expr') :
    Agree (n + 1) (arrayReferenceOf expr) (arrayReferenceOf expr') := by
  refine .behind advances_letter fun name => agree_literal (by simp) fun _ => .behind advances_spaces fun _ => ?_
  have hl : Agree n (separated "," expr <|> pure []) (separated "," expr' <|> pure []) :=
    (agree_separated (by simp) he h).orElse (.refl n (pure []))
  exact hl.bind ((advances_separated (by simp) he).orElse (advances_pure [])).sound fun _ _ _ => .refl _ _

theorem advances_atomAlternatives (he : Advances expr) (ha : Advances atom) :
    Advances (firstOf (atomAlternatives expr atom)) := by
  refine .firstOf fun p hp => ?_
  simp only [atomAlternatives, List.mem_cons, List.not_mem_nil, or_false] at hp
  rcases hp with rfl | rfl | rfl | rfl | rfl | rfl | rfl
  · exact advances_parenthesised he
  · exact advances_functionCall he
  · exact advances_negation ha
  · exact sound_real.advances.bind fun _ => advances_pure _
  · exact advances_integer.bind fun _ => advances_pure _
  · exact (advances_arrayReferenceOf he).bind fun _ => advances_pure _
  · exact advances_letter.bind fun _ => advances_pure _

theorem agree_atomAlternatives {n : Nat} {expr' atom' : Rule Expression} (he : Advances expr) (ha : Advances atom)
    (h : Agree n expr expr') (h' : Agree n atom atom') :
    Agree (n + 1) (firstOf (atomAlternatives expr atom)) (firstOf (atomAlternatives expr' atom')) := by
  refine .orElse (agree_parenthesised he h) <| .orElse (agree_functionCall he h) <|
    .orElse (agree_negation ha h') <| .orElse (.refl _ _) <| .orElse (.refl _ _) <| .orElse ?_ (.refl _ _)
  exact (agree_arrayReferenceOf he h).bind (advances_arrayReferenceOf he).sound fun _ _ _ => .refl _ _

theorem guarded_atom (he : Advances expr) : Guarded fun atom => firstOf (atomAlternatives expr atom) where
  advances := fun _ ha => advances_atomAlternatives he ha
  agree := fun _ _ _ hp _ h => agree_atomAlternatives he hp (.refl _ expr) h

theorem atomOf_eq (he : Advances expr) : atomOf expr = firstOf (atomAlternatives expr (atomOf expr)) :=
  fix_eq (guarded_atom he)

theorem advances_atomOf (he : Advances expr) : Advances (atomOf expr) := advances_fix (guarded_atom he).advances

theorem agree_atomOf {n : Nat} {expr' : Rule Expression} (he : Advances expr) (h : Agree n expr expr') :
    Agree (n + 1) (atomOf expr) (atomOf expr') :=
  .fix (guarded_atom he).advances fun _ _ hp hpq => agree_atomAlternatives he hp h (hpq.mono (Nat.le_succ n))

theorem guarded_expression : Guarded fun inner => operators (atomOf inner) where
  advances := fun _ hp => advances_operators (advances_atomOf hp)
  agree := fun _ _ _ hp _ h => agree_operators (advances_atomOf hp) (agree_atomOf hp h)

theorem expression_eq : expression = operators (atomOf expression) := fix_eq guarded_expression

theorem advances_expression : Advances expression := advances_fix guarded_expression.advances

theorem advances_arrayReference : Advances arrayReference := advances_arrayReferenceOf advances_expression

/-! ## Strings and conditions -/

theorem advances_fragment : Advances fragment := by
  refine .firstOf fun p hp => ?_
  simp only [List.mem_cons, List.not_mem_nil, or_false] at hp
  rcases hp with rfl | rfl | rfl
  · exact sound_quoted.advances.bind fun _ => advances_pure _
  · refine (advances_literal _).bind fun _ => advances_spaces.bind fun _ => advances_integer.bind fun _ => ?_
    exact advances_spaces.bind fun _ => (advances_literal _).bind fun _ => advances_pure _
  · exact advances_expression.bind fun _ => advances_pure _

theorem guarded_stringBody : Guarded fun body => do
    let left ← fragment
    (do literal ";"; spaces; let right ← body; pure (.concat left right))
      <|> (do literal ","; spaces; let right ← body; pure (.concatTab left right))
      <|> pure left where
  advances := by
    intro p hp
    refine advances_fragment.bind fun left => .orElse ?_ (.orElse ?_ (advances_pure left))
    · exact (advances_literal _).bind fun _ => advances_spaces.bind fun _ => hp.bind fun _ => advances_pure _
    · exact (advances_literal _).bind fun _ => advances_spaces.bind fun _ => hp.bind fun _ => advances_pure _
  agree := by
    intro n p q hp hq h
    refine .behind advances_fragment fun left => .orElse ?_ (.orElse ?_ (.refl _ _))
    · exact agree_literal (by simp) fun _ => .behind advances_spaces fun _ => h.bind hp.sound fun _ _ _ => .refl _ _
    · exact agree_literal (by simp) fun _ => .behind advances_spaces fun _ => h.bind hp.sound fun _ _ _ => .refl _ _

theorem stringBody_eq : stringBody = (do
    let left ← fragment
    (do literal ";"; spaces; let right ← stringBody; pure (.concat left right))
      <|> (do literal ","; spaces; let right ← stringBody; pure (.concatTab left right))
      <|> pure left) :=
  fix_eq guarded_stringBody

theorem advances_stringBody : Advances stringBody := advances_fix guarded_stringBody.advances

theorem advances_comparison : Advances comparison := by
  refine advances_expression.bind fun left => advances_spaces.bind fun _ => .bind (.firstOf fun p hp => ?_) fun op => ?_
  · simp only [List.mem_cons, List.not_mem_nil, or_false] at hp
    rcases hp with rfl | rfl | rfl | rfl | rfl | rfl <;> exact (advances_literal _).bind fun _ => advances_pure _
  · exact advances_spaces.bind fun _ => advances_expression.bind fun right => advances_pure _

section Joined

variable {connective : Connective} {spelling : String} {left : Condition} {right : Rule Condition}

theorem advances_joined (hr : Advances right) : Advances (joined connective spelling left right) :=
  advances_spaces.bind fun _ => (advances_literal _).bind fun _ => advances_spaces.bind fun _ => hr.bind fun _ =>
    advances_pure _

theorem agree_joined {n : Nat} {right' : Rule Condition} (hs : spelling.toList ≠ []) (hr : Advances right)
    (h : Agree n right right') :
    Agree (n + 1) (joined connective spelling left right) (joined connective spelling left right') :=
  .behind advances_spaces fun _ => agree_literal hs fun _ => .behind advances_spaces fun _ =>
    h.bind hr.sound fun _ _ _ => .refl _ _

end Joined

theorem guarded_conjunction : Guarded fun same => do
    let left ← comparison
    joined .and "AND" left same <|> pure left where
  advances := fun _ hp => advances_comparison.bind fun left => (advances_joined hp).orElse (advances_pure left)
  agree := fun _ _ _ hp _ h => .behind advances_comparison fun _ => (agree_joined (by simp) hp h).orElse (.refl _ _)

theorem conjunction_eq : conjunction = (do
    let left ← comparison
    joined .and "AND" left conjunction <|> pure left) :=
  fix_eq guarded_conjunction

theorem advances_conjunction : Advances conjunction := advances_fix guarded_conjunction.advances

theorem guarded_condition : Guarded fun same => do
    let left ← comparison
    joined .and "AND" left conjunction <|> joined .or "OR" left same <|> pure left where
  advances := fun _ hp => advances_comparison.bind fun left =>
    (advances_joined advances_conjunction).orElse ((advances_joined hp).orElse (advances_pure left))
  agree := fun _ _ _ hp _ h => .behind advances_comparison fun _ =>
    .orElse (.refl _ _) ((agree_joined (by simp) hp h).orElse (.refl _ _))

theorem condition_eq : condition = (do
    let left ← comparison
    joined .and "AND" left conjunction <|> joined .or "OR" left condition <|> pure left) :=
  fix_eq guarded_condition

theorem advances_condition : Advances condition := advances_fix guarded_condition.advances

/-! ## Statements -/

theorem advances_stringExpression : Advances stringExpression :=
  advances_stringBody.bind fun body => .orElse ((advances_literal _).bind fun _ => advances_pure _) <|
    .orElse ((advances_literal _).bind fun _ => advances_pure _) (advances_pure body)

theorem advances_target : Advances target :=
  .orElse (advances_arrayReference.bind fun _ => advances_pure _) <|
    .orElse (advances_letter.bind fun _ => advances_pure _) advances_fail

theorem advances_assignStatement : Advances assignStatement := by
  refine .bind ?_ fun _ => advances_target.bind fun target => advances_spaces.bind fun _ => ?_
  · exact ((advances_keyword _).bind fun _ => advances_pure true).orElse (advances_pure false)
  refine (advances_literal _).bind fun _ => advances_spaces.bind fun _ => ?_
  exact advances_expression.bind fun _ => advances_pure _

theorem advances_ifStatement : Advances ifStatement := by
  refine (advances_keyword _).bind fun _ => advances_condition.bind fun test => advances_spaces.bind fun _ => ?_
  exact (advances_keyword _).bind fun _ => advances_integer.bind fun _ => advances_pure _

theorem advances_stepClause : Advances stepClause := by
  refine .bind ?_ fun b => ?_
  · exact ((advances_spaces.bind fun _ => advances_keyword _).bind fun _ => advances_pure true).orElse (advances_pure false)
  · split
    · exact advances_expression
    · exact advances_pure _

theorem advances_forStatement : Advances forStatement := by
  refine (advances_keyword _).bind fun _ => advances_letter.bind fun counter => advances_spaces.bind fun _ => ?_
  refine (advances_literal _).bind fun _ => advances_spaces.bind fun _ => advances_expression.bind fun start => ?_
  refine advances_spaces.bind fun _ => (advances_keyword _).bind fun _ => advances_expression.bind fun stop => ?_
  exact advances_stepClause.bind fun _ => advances_pure _

theorem advances_inputStatement : Advances inputStatement := by
  refine (advances_keyword _).bind fun _ => advances_here.bind fun start => advances_stringExpression.bind fun operand => ?_
  split
  · exact advances_pure _
  · exact advances_want _ _

theorem advances_onGotoStatement : Advances onGotoStatement := by
  refine (advances_keyword _).bind fun _ => advances_letter.bind fun selector => advances_spaces.bind fun _ => ?_
  refine (advances_keyword _).bind fun _ => (advances_separated (by simp) advances_integer).bind fun _ => ?_
  exact advances_pure _

theorem advances_statementRules : ∀ p ∈ statementRules, Advances p := by
  intro p hp
  simp only [statementRules, List.mem_cons, List.not_mem_nil, or_false] at hp
  rcases hp with rfl | rfl | rfl | rfl | rfl | rfl | rfl | rfl | rfl | rfl | rfl | rfl | rfl
  · exact (advances_literal _).bind fun _ => advances_restOfLine.bind fun _ => advances_pure _
  · refine (advances_keyword _).bind fun _ => ?_
    exact (advances_stringExpression.orElse (advances_pure _)).bind fun _ => advances_pure _
  · exact advances_assignStatement
  · exact (advances_literal _).bind fun _ => advances_pure _
  · exact (advances_keyword _).bind fun _ => advances_integer.bind fun _ => advances_pure _
  · exact (advances_keyword _).bind fun _ => advances_integer.bind fun _ => advances_pure _
  · exact advances_ifStatement
  · exact advances_forStatement
  · exact (advances_keyword _).bind fun _ => (advances_separated (by simp) advances_letter).bind fun _ => advances_pure _
  · exact advances_inputStatement
  · exact (advances_literal _).bind fun _ => advances_pure _
  · refine (advances_keyword _).bind fun _ => ?_
    exact (advances_separated (by simp) advances_arrayReference).bind fun _ => advances_pure _
  · exact advances_onGotoStatement

theorem guarded_statementOf {rules : List (Rule Statement)} (hr : ∀ p ∈ rules, Advances p) : Guarded fun same => do
    let first ← firstOf rules
    (do spaces; literal ":"; spaces; let rest ← same; pure (.sequence first rest)) <|> pure first where
  advances := by
    intro p hp
    refine (Advances.firstOf hr).bind fun first => .orElse (advances_spaces.bind fun _ => ?_) (advances_pure first)
    exact (advances_literal _).bind fun _ => advances_spaces.bind fun _ => hp.bind fun _ => advances_pure _
  agree := by
    intro n p q hp hq h
    refine .behind (.firstOf hr) fun first => .orElse (.behind advances_spaces fun _ => ?_) (.refl _ _)
    exact agree_literal (by simp) fun _ => .behind advances_spaces fun _ => h.bind hp.sound fun _ _ _ => .refl _ _

theorem statementOf_eq {rules : List (Rule Statement)} (hr : ∀ p ∈ rules, Advances p) : statementOf rules = (do
    let first ← firstOf rules
    (do spaces; literal ":"; spaces; let rest ← statementOf rules; pure (.sequence first rest)) <|> pure first) :=
  fix_eq (guarded_statementOf hr)

theorem statement_eq : statement = (do
    let first ← firstOf statementRules
    (do spaces; literal ":"; spaces; let rest ← statement; pure (.sequence first rest)) <|> pure first) :=
  statementOf_eq advances_statementRules

end Grammar

end LineBasic
