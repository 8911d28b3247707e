import LineBasic.Proofs.Alike
import LineBasic.Proofs.Recursion

/-
  LineBasic.Proofs.Plain — the grammar without shared beginnings.

  Where several alternatives begin alike, the grammar reads the beginning once and then looks how it goes on. The plain
  grammar is written as it is meant: every alternative is a rule of its own that starts again where the others started.
  Rule by rule the two are alike: the same trees, offsets and aborts, and after any misses before them the same farthest
  offset with the same things wanted there.
-/

namespace LineBasic

open Rule Grammar

/-! ## The plain grammar -/

namespace Plain

def levelBody (op : BinaryOp) (symbol : String) (operand same : Rule Expression) : Rule Expression :=
  (do let left ← operand; spaces; literal symbol; spaces; let right ← same; pure (.binary op left right)) <|> operand

def level (op : BinaryOp) (symbol : String) (operand : Rule Expression) : Rule Expression :=
  fix (levelBody op symbol operand)

def operators (atom : Rule Expression) : Rule Expression :=
  level .subtract "-" (level .add "+" (level .divide "/" (level .multiply "*" atom)))

def expression : Rule Expression := fix fun inner => operators (atomOf inner)

def arrayReference : Rule ArrayReference := arrayReferenceOf expression

def fragment : Rule StringExpression := fragmentOf expression

def fragmentsBody (body : Rule StringExpression) : Rule StringExpression :=
  (do let left ← fragment; literal ";"; spaces; let right ← body; pure (.concat left right))
    <|> (do let left ← fragment; literal ","; spaces; let right ← body; pure (.concatTab left right))
    <|> fragment

def stringBody : Rule StringExpression := fix fragmentsBody

def stringExpression : Rule StringExpression :=
  (do let body ← stringBody; literal ","; pure (.trailingTab body))
    <|> (do let body ← stringBody; literal ";"; pure (.suppressNewline body))
    <|> stringBody

def comparison : Rule Condition := comparisonOf expression

def conjunctionBody (same : Rule Condition) : Rule Condition :=
  (do let left ← comparison; joined .and "AND" left same) <|> comparison

def conjunction : Rule Condition := fix conjunctionBody

def conditionBody (same : Rule Condition) : Rule Condition :=
  (do let left ← comparison; joined .and "AND" left conjunction)
    <|> (do let left ← comparison; joined .or "OR" left same)
    <|> comparison

def condition : Rule Condition := fix conditionBody

/-! ### Statements -/

def single : Rule Statement := firstOf
  [ remarkStatement,
    printStatementOf stringExpression,
    assignStatementOf (targetOf arrayReference) expression,
    finishStatement, gotoStatement, gosubStatement,
    ifStatementOf condition,
    forStatementOf expression,
    nextStatement,
    inputStatementOf stringExpression,
    returnStatement,
    dimStatementOf arrayReference,
    onGotoStatement ]

def statementBody (same : Rule Statement) : Rule Statement :=
  (do let first ← single; spaces; literal ":"; spaces; let rest ← same; pure (.sequence first rest)) <|> single

def statement : Rule Statement := fix statementBody

end Plain

/-! ## The rules are alike -/

namespace Grammar

variable {expr expr' atom atom' operand operand' : Rule Expression}

theorem alike_levelBody {op : BinaryOp} {symbol : String} (h : Alike operand operand') (same same' : Rule Expression)
    (hs : Alike same same') :
    Alike (do
        let left ← operand
        (do spaces; literal symbol; spaces; let right ← same; pure (Expression.binary op left right)) <|> pure left)
      (Plain.levelBody op symbol operand' same') := by
  refine (alike_shared_pure operand _).trans (.orElse (h.bind fun left => ?_) h)
  exact .behind fun _ => .behind fun _ => .behind fun _ => hs.bind fun _ => .refl _

theorem alike_level {op : BinaryOp} {symbol : String} (h : Alike operand operand') :
    Alike (level op symbol operand) (Plain.level op symbol operand') := .fix (alike_levelBody h)

/-- The plain level is its own body, so its recursion never runs out of rounds either. -/
theorem level_plain {op : BinaryOp} {symbol : String} (hs : symbol.toList ≠ []) (ho : Advances operand) :
    Alike (Plain.level op symbol operand) (Plain.levelBody op symbol operand (Plain.level op symbol operand)) :=
  (alike_fix (guarded_level hs ho) (alike_levelBody (.refl operand))).2

theorem alike_parenthesised (h : Alike expr expr') : Alike (parenthesised expr) (parenthesised expr') :=
  .behind fun _ => .behind fun _ => h.bind fun _ => .refl _

theorem alike_functionCall (h : Alike expr expr') : Alike (functionCall expr) (functionCall expr') := by
  refine .behind fun start => .behind fun name => ?_
  cases builtIn? name with
  | some function => exact (alike_parenthesised h).bind fun _ => .refl _
  | none => exact .refl _

theorem alike_arrayReferenceOf (h : Alike expr expr') : Alike (arrayReferenceOf expr) (arrayReferenceOf expr') :=
  .behind fun _ => .behind fun _ => .behind fun _ => (h.separated.orElse (.refl _)).bind fun _ => .refl _

theorem alike_atomOf (h : Alike expr expr') : Alike (atomOf expr) (atomOf expr') := by
  refine .fix fun atom atom' ha => ?_
  have negated : Alike (negation atom) (negation atom') := .behind fun _ => .behind fun _ => ha.bind fun _ => .refl _
  have element : Alike (do let a ← arrayReferenceOf expr; pure a.expression) _ :=
    (alike_arrayReferenceOf h).bind fun _ => .refl (pure _)
  exact (alike_parenthesised h).orElse <| (alike_functionCall h).orElse <| negated.orElse <| .orElse (.refl _) <|
    .orElse (.refl _) <| element.orElse (.refl _)

theorem expression_plain :
    Alike expression Plain.expression ∧ Alike Plain.expression (Plain.operators (atomOf Plain.expression)) :=
  alike_fix guarded_expression fun _ _ h => alike_level (alike_level (alike_level (alike_level (alike_atomOf h))))

theorem alike_expression : Alike expression Plain.expression := expression_plain.1

theorem alike_arrayReference : Alike arrayReference Plain.arrayReference := alike_arrayReferenceOf alike_expression

theorem alike_fragmentOf (h : Alike expr expr') : Alike (fragmentOf expr) (fragmentOf expr') :=
  .orElse (.refl _) <| .orElse (.refl _) <| .orElse (h.bind fun _ => .refl _) (.refl _)

theorem alike_fragment : Alike fragment Plain.fragment := alike_fragmentOf alike_expression

theorem stringBody_plain :
    Alike stringBody Plain.stringBody ∧ Alike Plain.stringBody (Plain.fragmentsBody Plain.stringBody) := by
  refine alike_fix guarded_stringBody fun body body' hb => (alike_shared_twice fragment _ _).trans ?_
  refine .orElse (alike_fragment.bind fun left => ?_) (.orElse (alike_fragment.bind fun left => ?_) alike_fragment)
  · exact .behind fun _ => .behind fun _ => hb.bind fun _ => .refl _
  · exact .behind fun _ => .behind fun _ => hb.bind fun _ => .refl _

theorem alike_stringBody : Alike stringBody Plain.stringBody := stringBody_plain.1

theorem alike_stringExpression : Alike stringExpression Plain.stringExpression :=
  (alike_shared_twice stringBody _ _).trans <| .orElse (alike_stringBody.bind fun _ => .refl _) <|
    .orElse (alike_stringBody.bind fun _ => .refl _) alike_stringBody

theorem alike_comparisonOf (h : Alike expr expr') : Alike (comparisonOf expr) (comparisonOf expr') :=
  h.bind fun _ => .behind fun _ => .behind fun _ => .behind fun _ => h.bind fun _ => .refl _

theorem alike_comparison : Alike comparison Plain.comparison := alike_comparisonOf alike_expression

theorem alike_joined {op : Connective} {spelling : String} {left : Condition} {right right' : Rule Condition}
    (h : Alike right right') : Alike (joined op spelling left right) (joined op spelling left right') :=
  .behind fun _ => .behind fun _ => .behind fun _ => h.bind fun _ => .refl _

theorem conjunction_plain :
    Alike conjunction Plain.conjunction ∧ Alike Plain.conjunction (Plain.conjunctionBody Plain.conjunction) :=
  alike_fix guarded_conjunction fun _ _ h => (alike_shared_pure comparison _).trans <|
    .orElse (alike_comparison.bind fun _ => alike_joined h) alike_comparison

theorem condition_plain :
    Alike condition Plain.condition ∧ Alike Plain.condition (Plain.conditionBody Plain.condition) :=
  alike_fix guarded_condition fun _ _ h => (alike_shared_twice comparison _ _).trans <|
    .orElse (alike_comparison.bind fun _ => alike_joined conjunction_plain.1) <|
      .orElse (alike_comparison.bind fun _ => alike_joined h) alike_comparison

theorem alike_condition : Alike condition Plain.condition := condition_plain.1

/-! ### Statements -/

section

variable {array array' : Rule ArrayReference} {written written' : Rule StringExpression} {test test' : Rule Condition}
variable {place place' : Rule Target}

theorem alike_targetOf (h : Alike array array') : Alike (targetOf array) (targetOf array') :=
  .orElse (h.bind fun _ => .refl _) (.refl _)

theorem alike_assignStatementOf (hp : Alike place place') (h : Alike expr expr') :
    Alike (assignStatementOf place expr) (assignStatementOf place' expr') :=
  .behind fun _ => hp.bind fun _ => .behind fun _ => .behind fun _ => .behind fun _ => h.bind fun _ => .refl _

theorem alike_printStatementOf (h : Alike written written') : Alike (printStatementOf written) (printStatementOf written') :=
  .behind fun _ => (h.orElse (.refl _)).bind fun _ => .refl _

theorem alike_ifStatementOf (h : Alike test test') : Alike (ifStatementOf test) (ifStatementOf test') :=
  .behind fun _ => h.bind fun _ => .refl _

theorem alike_stepClauseOf (h : Alike expr expr') : Alike (stepClauseOf expr) (stepClauseOf expr') := by
  refine .behind fun b => ?_
  split
  · exact h
  · exact .refl _

theorem alike_forStatementOf (h : Alike expr expr') : Alike (forStatementOf expr) (forStatementOf expr') := by
  refine .behind fun _ => .behind fun _ => .behind fun _ => .behind fun _ => .behind fun _ => ?_
  refine h.bind fun _ => .behind fun _ => .behind fun _ => h.bind fun _ => ?_
  exact (alike_stepClauseOf h).bind fun _ => .refl _

theorem alike_inputStatementOf (h : Alike written written') : Alike (inputStatementOf written) (inputStatementOf written') :=
  .behind fun _ => .behind fun _ => h.bind fun _ => .refl _

theorem alike_dimStatementOf (h : Alike array array') : Alike (dimStatementOf array) (dimStatementOf array') :=
  .behind fun _ => h.separated.bind fun _ => .refl _

end

theorem alike_single : Alike (firstOf statementRules) Plain.single :=
  .orElse (.refl _) <| .orElse (alike_printStatementOf alike_stringExpression) <|
    .orElse (alike_assignStatementOf (alike_targetOf alike_arrayReference) alike_expression) <| .orElse (.refl _) <|
    .orElse (.refl _) <| .orElse (.refl _) <| .orElse (alike_ifStatementOf alike_condition) <|
    .orElse (alike_forStatementOf alike_expression) <| .orElse (.refl _) <|
    .orElse (alike_inputStatementOf alike_stringExpression) <| .orElse (.refl _) <|
    .orElse (alike_dimStatementOf alike_arrayReference) (.refl _)

theorem statement_plain :
    Alike statement Plain.statement ∧ Alike Plain.statement (Plain.statementBody Plain.statement) := by
  refine alike_fix (guarded_statementOf advances_statementRules) fun same same' h =>
    (alike_shared_pure (firstOf statementRules) _).trans (.orElse ?_ alike_single)
  exact alike_single.bind fun _ => .behind fun _ => .behind fun _ => .behind fun _ => h.bind fun _ => .refl _

end Grammar

/-! ## From outside -/

/-- At every offset of every span, and after any misses before, the rules have the same outcome and leave frontiers that
    cannot be told apart. -/
def Rule.Indistinct {α : Type} (p q : Rule α) : Prop :=
  ∀ (text : Text) (offset stop : Nat) (f : Frontier),
    (p.run ⟨offset, text.slice offset stop⟩).outcome = (q.run ⟨offset, text.slice offset stop⟩).outcome ∧
    (f.recordAll (p.run ⟨offset, text.slice offset stop⟩).misses).Same
      (f.recordAll (q.run ⟨offset, text.slice offset stop⟩).misses)

theorem Rule.Alike.indistinct {α : Type} {p q : Rule α} (h : Alike p q) : p.Indistinct q := fun text offset stop f =>
  ⟨(h ⟨offset, text.slice offset stop⟩).1, .recordAll f (h ⟨offset, text.slice offset stop⟩).2⟩

/-- Shared beginnings cannot be told from outside. -/
theorem plain_indistinct :
    expression.Indistinct Plain.expression ∧ arrayReference.Indistinct Plain.arrayReference ∧
    stringBody.Indistinct Plain.stringBody ∧ stringExpression.Indistinct Plain.stringExpression ∧
    condition.Indistinct Plain.condition ∧ statement.Indistinct Plain.statement :=
  ⟨alike_expression.indistinct, alike_arrayReference.indistinct, alike_stringBody.indistinct,
    alike_stringExpression.indistinct, alike_condition.indistinct, statement_plain.1.indistinct⟩

end LineBasic
