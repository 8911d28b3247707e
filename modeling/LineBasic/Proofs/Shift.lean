import LineBasic.Grammar.Reading
import LineBasic.Proofs.Reading

/-
  LineBasic.Proofs.Shift — a rule does not know where in the whole text its characters stand.

  Where the same characters are ahead, a rule replies alike at every offset, but for the offsets in its reply
  (`Shifts`). A rule may look at the offset of its cursor (`here`) to say where a failure is; then the rules that go on
  from the two cursors have to shift together. So a span fails or is read as its characters alone, with the offset of
  the error counted from the start of the whole text (`parseSpan_shift`).
-/

namespace LineBasic

variable {α β : Type} {k : Nat}

/-! ## What is shifted -/

def Cursor.shift (k : Nat) (c : Cursor) : Cursor := ⟨c.offset + k, c.rest⟩

def Miss.shift (k : Nat) (m : Miss) : Miss := ⟨m.offset + k, m.wanted⟩

def Abort.shift (k : Nat) : Abort → Abort
  | unknownFunction offset name => .unknownFunction (offset + k) name
  | tooManyDigits count => .tooManyDigits count

def Outcome.shift (k : Nat) : Outcome α → Outcome α
  | found value next => .found value (next.shift k)
  | missing => .missing
  | aborted cause => .aborted (cause.shift k)

def Reply.shift (k : Nat) (r : Reply α) : Reply α := ⟨r.outcome.shift k, r.misses.map (Miss.shift k)⟩

/-- An error of a text as an error of a whole text in which that text begins at offset `k`. -/
def ParseError.shift (k : Nat) (e : ParseError) : ParseError := { e with offset := e.offset + k }

def Failure.shift (k : Nat) : Failure → Failure
  | badText error => .badText (error.shift k)
  | tooManyDigits count => .tooManyDigits count
  | lineNumberTooLong count => .lineNumberTooLong count
  | emptyProgram => .emptyProgram

theorem Cursor.shift_advance (c : Cursor) (n : Nat) : (c.advance n).shift k = (c.shift k).advance n := by
  simp [Cursor.shift, Cursor.advance, Nat.add_right_comm]

theorem Reply.shift_after (earlier : List Miss) (r : Reply α) :
    (r.after earlier).shift k = (r.shift k).after (earlier.map (Miss.shift k)) := by
  simp [Reply.shift, Reply.after]

theorem Reply.shift_andThen (r : Reply α) {f g : α → Cursor → Reply β}
    (h : ∀ v c, g v (c.shift k) = (f v c).shift k) : (r.shift k).andThen g = (r.andThen f).shift k := by
  obtain ⟨outcome, misses⟩ := r
  cases outcome with
  | found v c =>
    show (g v (c.shift k)).after (misses.map (Miss.shift k)) = ((f v c).after misses).shift k
    rw [h, Reply.shift_after]
  | missing => rfl
  | aborted cause => rfl

theorem Reply.shift_orTry (r : Reply α) {f g : Unit → Reply α} (h : g () = (f ()).shift k) :
    (r.shift k).orTry g = (r.orTry f).shift k := by
  obtain ⟨outcome, misses⟩ := r
  cases outcome with
  | found v c => rfl
  | missing =>
    show (g ()).after (misses.map (Miss.shift k)) = ((f ()).after misses).shift k
    rw [h, Reply.shift_after]
  | aborted cause => rfl

/-! ## Rules that shift -/

namespace Rule

/-- Where `p` replies at an offset, `q` replies alike `k` characters further. -/
def Shifts (k : Nat) (p q : Rule α) : Prop := ∀ c, q.run (c.shift k) = (p.run c).shift k

variable {p q p' q' : Rule α}

theorem shifts_pure (v : α) : Shifts k (pure v) (pure v) := fun _ => rfl

theorem shifts_fail : Shifts k (fail : Rule α) fail := fun _ => rfl

theorem shifts_want (offset : Nat) (wanted : Wanted) :
    Shifts k (want offset wanted : Rule α) (want (offset + k) wanted) := fun _ => rfl

theorem shifts_abort (cause : Abort) : Shifts k (abort cause : Rule α) (abort (cause.shift k)) := fun _ => rfl

theorem Shifts.bind {f g : α → Rule β} (hp : Shifts k p q) (hf : ∀ v, Shifts k (f v) (g v)) :
    Shifts k (p >>= f) (q >>= g) := by
  intro c
  rw [run_bind, run_bind, hp c]
  exact Reply.shift_andThen _ fun v d => hf v d

/-- A rule that looks at its cursor sees the shifted one. -/
theorem shifts_here {f g : Cursor → Rule β} (h : ∀ start : Cursor, Shifts k (f start) (g (start.shift k))) :
    Shifts k (do let start ← here; f start) (do let start ← here; g start) := fun c =>
  h c c

theorem Shifts.orElse (hp : Shifts k p q) (hp' : Shifts k p' q') : Shifts k (p <|> p') (q <|> q') := by
  intro c
  rw [run_orElse, run_orElse, hp c]
  exact Reply.shift_orTry _ (hp' c)

theorem Shifts.firstOf {ps : List (Rule α)} (h : ∀ p ∈ ps, Shifts k p p) : Shifts k (firstOf ps) (firstOf ps) := by
  induction ps with
  | nil => exact shifts_fail
  | cons p ps ih => exact (h p (by simp)).orElse (ih fun q hq => h q (by simp [hq]))

theorem Shifts.fix {body body' : Rule α → Rule α} (h : ∀ p q, Shifts k p q → Shifts k (body p) (body' q)) :
    Shifts k (fix body) (fix body') := by
  have hr : ∀ fuel, Shifts k ⟨rounds body fuel⟩ ⟨rounds body' fuel⟩ := by
    intro fuel
    induction fuel with
    | nil => exact h fail fail shifts_fail
    | cons _ fuel ih => exact h ⟨rounds body fuel⟩ ⟨rounds body' fuel⟩ ih
  exact fun c => hr c.rest c

theorem Shifts.succeeds {p q : Rule Unit} (h : Shifts k p q) : Shifts k (succeeds p) (succeeds q) :=
  (h.bind fun _ => shifts_pure true).orElse (shifts_pure false)

/-! ### Lexemes -/

theorem shifts_lexeme (wanted : Wanted) (scan : Text → Option (α × Nat)) :
    Shifts k (lexeme wanted scan) (lexeme wanted scan) := by
  intro c
  have ahead : (c.shift k).rest = c.rest := rfl
  unfold lexeme
  simp only [ahead]
  cases scan c.rest with
  | none => rfl
  | some r => exact congrArg (fun d => (⟨.found r.1 d, []⟩ : Reply α)) (c.shift_advance r.2).symm

theorem shifts_spaces : Shifts k spaces spaces := fun c =>
  congrArg (fun d => (⟨.found () d, []⟩ : Reply Unit)) (c.shift_advance _).symm

theorem shifts_literal (spelling : String) : Shifts k (literal spelling) (literal spelling) := shifts_lexeme _ _

theorem shifts_keyword (spelling : String) : Shifts k (keyword spelling) (keyword spelling) :=
  (shifts_literal spelling).bind fun _ => shifts_spaces

theorem shifts_integer : Shifts k integer integer := by
  refine (shifts_lexeme _ _).bind fun digits => ?_
  split
  · exact shifts_abort _
  · exact shifts_pure _

theorem shifts_restOfLine : Shifts k restOfLine restOfLine := fun c =>
  congrArg (fun d => (⟨.found () d, []⟩ : Reply Unit)) (c.shift_advance _).symm

theorem shifts_endOfLine : Shifts k endOfLine endOfLine := by
  intro c
  by_cases h : c.rest = []
  · simp [endOfLine, h, Cursor.shift, Reply.shift, Outcome.shift]
  · simp [endOfLine, h, Cursor.shift, Reply.shift, Outcome.shift, Miss.shift]

theorem Shifts.separated {separator : String} (h : Shifts k p q) :
    Shifts k (separated separator p) (separated separator q) := by
  refine .fix fun items items' hi => h.bind fun first => ?_
  refine .bind (.succeeds (shifts_spaces.bind fun _ => (shifts_literal separator).bind fun _ => shifts_spaces)) fun b => ?_
  split
  · exact hi.bind fun _ => shifts_pure _
  · exact shifts_pure _

end Rule

/-! ## The grammar -/

namespace Grammar

open Rule

variable {expr expr' atom atom' operand operand' : Rule Expression}

theorem shifts_level {op : BinaryOp} {symbol : String} (h : Shifts k operand operand') :
    Shifts k (level op symbol operand) (level op symbol operand') := by
  refine .fix fun same same' hs => h.bind fun left => .orElse ?_ (shifts_pure left)
  refine shifts_spaces.bind fun _ => (shifts_literal symbol).bind fun _ => shifts_spaces.bind fun _ => ?_
  exact hs.bind fun _ => shifts_pure _

theorem shifts_parenthesised (h : Shifts k expr expr') : Shifts k (parenthesised expr) (parenthesised expr') := by
  refine (shifts_literal _).bind fun _ => shifts_spaces.bind fun _ => h.bind fun inner => shifts_spaces.bind fun _ => ?_
  exact (shifts_literal _).bind fun _ => shifts_pure inner

theorem shifts_functionCall (h : Shifts k expr expr') : Shifts k (functionCall expr) (functionCall expr') := by
  refine shifts_here fun start => (shifts_lexeme _ _).bind fun name => ?_
  cases builtIn? name with
  | some function => exact (shifts_parenthesised h).bind fun _ => shifts_pure _
  | none => exact shifts_abort _

theorem shifts_arrayReferenceOf (h : Shifts k expr expr') : Shifts k (arrayReferenceOf expr) (arrayReferenceOf expr') := by
  refine (shifts_lexeme _ _).bind fun name => (shifts_literal _).bind fun _ => shifts_spaces.bind fun _ => ?_
  refine (h.separated.orElse (shifts_pure [])).bind fun indices => shifts_spaces.bind fun _ => ?_
  exact (shifts_literal _).bind fun _ => shifts_pure _

theorem shifts_atomOf (h : Shifts k expr expr') : Shifts k (atomOf expr) (atomOf expr') := by
  refine .fix fun atom atom' ha => ?_
  have negated : Shifts k (negation atom) (negation atom') :=
    (shifts_literal _).bind fun _ => shifts_spaces.bind fun _ => ha.bind fun _ => shifts_pure _
  have number : Shifts k (do let x ← real; pure (Expression.real x)) _ := (shifts_lexeme _ _).bind fun _ => shifts_pure _
  have whole : Shifts k (do let n ← integer; pure (Expression.integer n)) _ := shifts_integer.bind fun _ => shifts_pure _
  have element : Shifts k (do let a ← arrayReferenceOf expr; pure a.expression) _ :=
    (shifts_arrayReferenceOf h).bind fun _ => shifts_pure _
  have scalar : Shifts k (do let name ← letter; pure (Expression.scalar name)) _ :=
    (shifts_lexeme _ _).bind fun _ => shifts_pure _
  exact (shifts_parenthesised h).orElse <| (shifts_functionCall h).orElse <| negated.orElse <| number.orElse <|
    whole.orElse <| element.orElse <| scalar.orElse shifts_fail

theorem shifts_expression : Shifts k expression expression :=
  .fix fun _ _ h => shifts_level (shifts_level (shifts_level (shifts_level (shifts_atomOf h))))

theorem shifts_arrayReference : Shifts k arrayReference arrayReference := shifts_arrayReferenceOf shifts_expression

theorem shifts_fragment : Shifts k fragment fragment := by
  refine .firstOf fun p hp => ?_
  simp only [List.mem_cons, List.not_mem_nil, or_false] at hp
  rcases hp with rfl | rfl | rfl
  · exact (shifts_lexeme _ _).bind fun _ => shifts_pure _
  · refine (shifts_literal _).bind fun _ => shifts_spaces.bind fun _ => shifts_integer.bind fun _ => ?_
    exact shifts_spaces.bind fun _ => (shifts_literal _).bind fun _ => shifts_pure _
  · exact shifts_expression.bind fun _ => shifts_pure _

theorem shifts_stringBody : Shifts k stringBody stringBody := by
  refine .fix fun body body' hb => shifts_fragment.bind fun left => .orElse ?_ (.orElse ?_ (shifts_pure left))
  · exact (shifts_literal _).bind fun _ => shifts_spaces.bind fun _ => hb.bind fun _ => shifts_pure _
  · exact (shifts_literal _).bind fun _ => shifts_spaces.bind fun _ => hb.bind fun _ => shifts_pure _

theorem shifts_stringExpression : Shifts k stringExpression stringExpression := by
  refine shifts_stringBody.bind fun body => .orElse ?_ (.orElse ?_ (shifts_pure body))
  · exact (shifts_literal _).bind fun _ => shifts_pure _
  · exact (shifts_literal _).bind fun _ => shifts_pure _

theorem shifts_comparison : Shifts k comparison comparison := by
  refine shifts_expression.bind fun left => shifts_spaces.bind fun _ => .bind (.firstOf fun p hp => ?_) fun op => ?_
  · simp only [List.mem_cons, List.not_mem_nil, or_false] at hp
    rcases hp with rfl | rfl | rfl | rfl | rfl | rfl <;> exact (shifts_literal _).bind fun _ => shifts_pure _
  · exact shifts_spaces.bind fun _ => shifts_expression.bind fun _ => shifts_pure _

theorem shifts_joined {op : Connective} {spelling : String} {left : Condition} {right right' : Rule Condition}
    (h : Shifts k right right') : Shifts k (joined op spelling left right) (joined op spelling left right') :=
  shifts_spaces.bind fun _ => (shifts_literal _).bind fun _ => shifts_spaces.bind fun _ => h.bind fun _ => shifts_pure _

theorem shifts_conjunction : Shifts k conjunction conjunction :=
  .fix fun _ _ h => shifts_comparison.bind fun left => (shifts_joined h).orElse (shifts_pure left)

theorem shifts_condition : Shifts k condition condition :=
  .fix fun _ _ h => shifts_comparison.bind fun left =>
    (shifts_joined shifts_conjunction).orElse ((shifts_joined h).orElse (shifts_pure left))

/-! ### Statements -/

theorem shifts_target : Shifts k target target := by
  refine .firstOf fun p hp => ?_
  simp only [List.mem_cons, List.not_mem_nil, or_false] at hp
  rcases hp with rfl | rfl
  · exact shifts_arrayReference.bind fun _ => shifts_pure _
  · exact (shifts_lexeme _ _).bind fun _ => shifts_pure _

theorem shifts_assignStatement : Shifts k assignStatement assignStatement := by
  refine (shifts_keyword _).succeeds.bind fun _ => shifts_target.bind fun target => shifts_spaces.bind fun _ => ?_
  refine (shifts_literal _).bind fun _ => shifts_spaces.bind fun _ => ?_
  exact shifts_expression.bind fun _ => shifts_pure _

theorem shifts_stepClause : Shifts k stepClause stepClause := by
  refine (Shifts.succeeds (shifts_spaces.bind fun _ => shifts_keyword _)).bind fun b => ?_
  split
  · exact shifts_expression
  · exact shifts_pure _

theorem shifts_forStatement : Shifts k forStatement forStatement := by
  refine (shifts_keyword _).bind fun _ => (shifts_lexeme _ _).bind fun counter => shifts_spaces.bind fun _ => ?_
  refine (shifts_literal _).bind fun _ => shifts_spaces.bind fun _ => shifts_expression.bind fun start => ?_
  refine shifts_spaces.bind fun _ => (shifts_keyword _).bind fun _ => shifts_expression.bind fun stop => ?_
  exact shifts_stepClause.bind fun _ => shifts_pure _

theorem shifts_ifStatement : Shifts k ifStatement ifStatement := by
  refine (shifts_keyword _).bind fun _ => shifts_condition.bind fun test => shifts_spaces.bind fun _ => ?_
  exact (shifts_keyword _).bind fun _ => shifts_integer.bind fun _ => shifts_pure _

/-- An operand of another shape is missed where it begins, so that place shifts too. -/
theorem shifts_inputStatement : Shifts k inputStatement inputStatement := by
  refine (shifts_keyword _).bind fun _ => shifts_here fun start => shifts_stringExpression.bind fun operand => ?_
  cases inputOperand? operand with
  | some read => exact shifts_pure _
  | none => exact shifts_want _ _

theorem shifts_onGotoStatement : Shifts k onGotoStatement onGotoStatement := by
  refine (shifts_keyword _).bind fun _ => (shifts_lexeme _ _).bind fun selector => shifts_spaces.bind fun _ => ?_
  exact (shifts_keyword _).bind fun _ => shifts_integer.separated.bind fun _ => shifts_pure _

theorem shifts_statementRules : ∀ p ∈ statementRules, Shifts k p p := by
  intro p hp
  simp only [statementRules, List.mem_cons, List.not_mem_nil, or_false] at hp
  rcases hp with rfl | rfl | rfl | rfl | rfl | rfl | rfl | rfl | rfl | rfl | rfl | rfl | rfl
  · exact (shifts_literal _).bind fun _ => shifts_restOfLine.bind fun _ => shifts_pure _
  · refine (shifts_keyword _).bind fun _ => (shifts_stringExpression.orElse (shifts_pure _)).bind fun _ => shifts_pure _
  · exact shifts_assignStatement
  · exact (shifts_literal _).bind fun _ => shifts_pure _
  · exact (shifts_keyword _).bind fun _ => shifts_integer.bind fun _ => shifts_pure _
  · exact (shifts_keyword _).bind fun _ => shifts_integer.bind fun _ => shifts_pure _
  · exact shifts_ifStatement
  · exact shifts_forStatement
  · exact (shifts_keyword _).bind fun _ => (Shifts.separated (shifts_lexeme _ _)).bind fun _ => shifts_pure _
  · exact shifts_inputStatement
  · exact (shifts_literal _).bind fun _ => shifts_pure _
  · exact (shifts_keyword _).bind fun _ => shifts_arrayReference.separated.bind fun _ => shifts_pure _
  · exact shifts_onGotoStatement

theorem shifts_statementOf {rules : List (Rule Statement)} (h : ∀ p ∈ rules, Shifts k p p) :
    Shifts k (statementOf rules) (statementOf rules) := by
  refine .fix fun same same' hs => .bind (.firstOf h) fun first => .orElse ?_ (shifts_pure first)
  refine shifts_spaces.bind fun _ => (shifts_literal _).bind fun _ => shifts_spaces.bind fun _ => ?_
  exact hs.bind fun _ => shifts_pure _

theorem shifts_statement : Shifts k statement statement := shifts_statementOf shifts_statementRules

end Grammar

/-! ## Spans -/

def Frontier.shift (k : Nat) (f : Frontier) : Frontier := ⟨f.farthest + k, f.wanted⟩

theorem Frontier.shift_record (f : Frontier) (m : Miss) : (f.record m).shift k = (f.shift k).record (m.shift k) := by
  unfold Frontier.record
  by_cases h₁ : f.farthest < m.offset
  · have h₁' : (f.shift k).farthest < (m.shift k).offset := Nat.add_lt_add_right h₁ k
    rw [if_pos h₁, if_pos h₁']
    rfl
  · have h₁' : ¬ (f.shift k).farthest < (m.shift k).offset := fun h => h₁ (Nat.lt_of_add_lt_add_right h)
    rw [if_neg h₁, if_neg h₁']
    by_cases h₂ : m.offset = f.farthest
    · have h₂' : (m.shift k).offset = (f.shift k).farthest := congrArg (· + k) h₂
      rw [if_pos h₂, if_pos h₂']
      rfl
    · have h₂' : ¬ (m.shift k).offset = (f.shift k).farthest := fun h => h₂ (Nat.add_right_cancel h)
      rw [if_neg h₂, if_neg h₂']

theorem Frontier.shift_recordAll (f : Frontier) (misses : List Miss) :
    (f.recordAll misses).shift k = (f.shift k).recordAll (misses.map (Miss.shift k)) := by
  induction misses generalizing f with
  | nil => rfl
  | cons m misses ih =>
    show ((f.record m).recordAll misses).shift k = ((f.shift k).record (m.shift k)).recordAll _
    rw [ih, Frontier.shift_record]

namespace Rule

variable {p : Rule α}

theorem Shifts.whole (h : Shifts k p p) : Shifts k p.whole p.whole :=
  h.bind fun v => shifts_spaces.bind fun _ => shifts_endOfLine.bind fun _ => shifts_pure v

/-- A span is read as its characters alone, but for the offset in the failure. -/
theorem parseSpan_shift (h : Shifts k p p) (o : Nat) (t : Text) :
    p.parseSpan (o + k) t = (p.parseSpan o t).mapError (Failure.shift k) := by
  have hr : p.whole.run ⟨o + k, t⟩ = (p.whole.run ⟨o, t⟩).shift k := h.whole ⟨o, t⟩
  unfold parseSpan
  rw [hr]
  obtain ⟨outcome, misses⟩ := p.whole.run ⟨o, t⟩
  cases outcome with
  | found v d => rfl
  | missing =>
    show Except.error (Failure.badText ((Frontier.start (o + k)).recordAll (misses.map (Miss.shift k))).error) =
      .error (.badText (((Frontier.start o).recordAll misses).error.shift k))
    have hf := (Frontier.start o).shift_recordAll misses (k := k)
    have hs : (Frontier.start o).shift k = Frontier.start (o + k) := rfl
    rw [← hs, ← hf]
    rfl
  | aborted cause => cases cause <;> rfl

theorem parseSpan_eq_parse (h : ∀ k, Shifts k p p) (o : Nat) (t : Text) :
    p.parseSpan o t = (p.parse t).mapError (Failure.shift o) := by
  have := parseSpan_shift (h o) 0 t
  rwa [Nat.zero_add] at this

end Rule

end LineBasic
