import Mathlib.Logic.Function.Iterate
import LineBasic.Proofs.Traversal

/-
  LineBasic.Proofs.Equations — the recursion of the grammar ends, however it is counted.

  `fix` gives every recursive rule as many rounds as there are characters ahead. Here the rules that call each other are
  written without rounds, as one system of equations: an expression begins with a sum and may go on with an expression, a
  sum begins with a quotient, and so on down to an atom, which may hold an expression again.

  (1) The grammar solves the system (`rules_eq`).
  (2) A rule is called only where fewer characters are ahead, or at the same cursor by a rule that is looser (`rank`). So
      from rules that are right on small calls the system makes rules that are right on the next larger ones
      (`rightBelow_equations`).
  (3) Five rounds of the system for every character ahead, and five more, settle a reply, whatever rules they begin with
      (`run_iterate_equations`). Rules that abort at every call may be taken for these, and an abort is never caught: so no
      call is that deep. And the grammar is the only solution (`rules_unique`).

  What a rule for strings, conditions or statements needs of the sorts below it stands in its equation as it is.
-/

namespace LineBasic.Grammar

open Rule

/-! ## (1) The system -/

/-- The rules that call themselves, those that they call on the way, and those that only call one of them. -/
inductive Nonterminal where
  | expression
  | sum
  | quotient
  | product
  | atom
  | arrayReference
  | stringBody
  | stringExpression
  | conjunction
  | condition
  | statement
  deriving DecidableEq, Repr

/-- What the rule finds. -/
abbrev Nonterminal.Tree : Nonterminal → Type
  | expression | sum | quotient | product | atom => Expression
  | arrayReference => ArrayReference
  | stringBody | stringExpression => StringExpression
  | conjunction | condition => Condition
  | statement => Statement

/-- A rule for every nonterminal. -/
abbrev Rules := (k : Nonterminal) → Rule k.Tree

/-- An operand, and `same` after the operator `symbol`, if there is one. -/
def levelOf (op : BinaryOp) (symbol : String) (operand same : Rule Expression) : Rule Expression := do
  let left ← operand
  (do spaces; literal symbol; spaces; let right ← same; pure (.binary op left right)) <|> pure left

/-- The right sides of the equations, with the rules `r` where a rule is called. -/
def equations (r : Rules) : Rules
  | .expression => levelOf .subtract "-" (r .sum) (r .expression)
  | .sum => levelOf .add "+" (r .quotient) (r .sum)
  | .quotient => levelOf .divide "/" (r .product) (r .quotient)
  | .product => levelOf .multiply "*" (r .atom) (r .product)
  | .atom => firstOf (atomAlternatives (r .expression) (r .atom))
  | .arrayReference => arrayReferenceOf (r .expression)
  | .stringBody => do
    let left ← fragment
    (do literal ";"; spaces; let right ← r .stringBody; pure (.concat left right))
      <|> (do literal ","; spaces; let right ← r .stringBody; pure (.concatTab left right))
      <|> pure left
  | .stringExpression => do
    let body ← r .stringBody
    (do literal ","; pure (.trailingTab body))
      <|> (do literal ";"; pure (.suppressNewline body))
      <|> pure body
  | .conjunction => do
    let left ← comparison
    joined .and "AND" left (r .conjunction) <|> pure left
  | .condition => do
    let left ← comparison
    joined .and "AND" left (r .conjunction) <|> joined .or "OR" left (r .condition) <|> pure left
  | .statement => do
    let first ← firstOf statementRules
    (do spaces; literal ":"; spaces; let rest ← r .statement; pure (.sequence first rest)) <|> pure first

/-- The rules of the grammar. -/
def rules : Rules
  | .expression => expression
  | .sum => level .add "+" (level .divide "/" (level .multiply "*" (atomOf expression)))
  | .quotient => level .divide "/" (level .multiply "*" (atomOf expression))
  | .product => level .multiply "*" (atomOf expression)
  | .atom => atomOf expression
  | .arrayReference => arrayReference
  | .stringBody => stringBody
  | .stringExpression => stringExpression
  | .conjunction => conjunction
  | .condition => condition
  | .statement => statement

theorem advances_rules (k : Nonterminal) : Advances (rules k) := by
  have atom : Advances (atomOf expression) := advances_atomOf advances_expression
  have product : Advances (rules .product) := advances_level (by simp) atom
  have quotient : Advances (rules .quotient) := advances_level (by simp) product
  cases k with
  | expression => exact advances_expression
  | sum => exact advances_level (by simp) quotient
  | quotient => exact quotient
  | product => exact product
  | atom => exact atom
  | arrayReference => exact advances_arrayReference
  | stringBody => exact advances_stringBody
  | stringExpression => exact advances_stringExpression
  | conjunction => exact advances_conjunction
  | condition => exact advances_condition
  | statement => exact advances_statement

theorem rules_eq : rules = equations rules := by
  funext k
  cases k with
  | expression =>
    have top : expression = level .subtract "-" (rules .sum) := expression_eq
    show expression = levelOf .subtract "-" (rules .sum) expression
    rw [top]
    exact level_eq (by simp) (advances_rules .sum)
  | sum => exact level_eq (by simp) (advances_rules .quotient)
  | quotient => exact level_eq (by simp) (advances_rules .product)
  | product => exact level_eq (by simp) (advances_rules .atom)
  | atom => exact atomOf_eq advances_expression
  | arrayReference => rfl
  | stringBody => exact stringBody_eq
  | stringExpression => rfl
  | conjunction => exact conjunction_eq
  | condition => exact condition_eq
  | statement => exact statement_eq

/-! ## (2) From small calls to larger ones -/

/-- A rule calls those of lower rank where it stands, and the others behind something that it has read. -/
def Nonterminal.rank : Nonterminal → Nat
  | atom | arrayReference | stringBody | conjunction | condition | statement => 0
  | product | stringExpression => 1
  | quotient => 2
  | sum => 3
  | expression => 4

theorem Nonterminal.rank_lt (k : Nonterminal) : k.rank < 5 := by cases k <;> decide

/-- The size of a call: the characters ahead come first, and among calls at one cursor the rank decides. -/
def Nonterminal.size (k : Nonterminal) (c : Cursor) : Nat := 5 * c.rest.length + k.rank

/-- The rules reply to calls smaller than `n` as the grammar does. -/
def RightBelow (n : Nat) (r : Rules) : Prop := ∀ k c, k.size c < n → (rules k).run c = (r k).run c

section

variable {n : Nat} {r : Rules} {operand operand' same same' : Rule Expression}

theorem agree_levelOf {op : BinaryOp} {symbol : String} (hs : symbol.toList ≠ []) (ha : Advances operand)
    (ha' : Advances same) (h : Agree (n + 1) operand operand') (h' : Agree n same same') :
    Agree (n + 1) (levelOf op symbol operand same) (levelOf op symbol operand' same') := by
  refine h.bind ha.sound fun _ left _ => Agree.mono (n := n + 1) ?_ (Nat.sub_le _ _)
  refine .orElse (.behind advances_spaces fun _ => agree_literal hs fun _ => ?_) (.refl _ _)
  exact .behind advances_spaces fun _ => h'.bind ha'.sound fun _ _ _ => .refl _ _

theorem rightBelow_equations (h : RightBelow n r) : RightBelow (n + 1) (equations r) := by
  intro k c hc
  -- Behind what has been read every rule is right, and at the cursor those of lower rank are.
  have behind (j : Nonterminal) : Agree c.rest.length (rules j) (r j) := fun d hd => h j d (by
    have := j.rank_lt
    simp only [Nonterminal.size] at hc ⊢
    omega)
  have atCursor (j : Nonterminal) (hj : j.rank < k.rank) : Agree (c.rest.length + 1) (rules j) (r j) :=
    fun d hd => h j d (by
      simp only [Nonterminal.size] at hc ⊢
      omega)
  suffices Agree (c.rest.length + 1) (equations rules k) (equations r k) by
    rw [rules_eq]
    exact this c (Nat.lt_succ_self _)
  cases k with
  | expression =>
    exact agree_levelOf (by simp) (advances_rules .sum) (advances_rules .expression) (atCursor .sum (by decide))
      (behind .expression)
  | sum =>
    exact agree_levelOf (by simp) (advances_rules .quotient) (advances_rules .sum) (atCursor .quotient (by decide))
      (behind .sum)
  | quotient =>
    exact agree_levelOf (by simp) (advances_rules .product) (advances_rules .quotient) (atCursor .product (by decide))
      (behind .quotient)
  | product =>
    exact agree_levelOf (by simp) (advances_rules .atom) (advances_rules .product) (atCursor .atom (by decide))
      (behind .product)
  | atom =>
    exact agree_atomAlternatives (advances_rules .expression) (advances_rules .atom) (behind .expression) (behind .atom)
  | arrayReference => exact agree_arrayReferenceOf (advances_rules .expression) (behind .expression)
  | stringBody =>
    have tail (word : String) (hw : word.toList ≠ []) (join : StringExpression → StringExpression) :
        Agree (c.rest.length + 1) (do literal word; spaces; let right ← rules .stringBody; pure (join right))
          (do literal word; spaces; let right ← r .stringBody; pure (join right)) :=
      agree_literal hw fun _ => .behind advances_spaces fun _ =>
        (behind .stringBody).bind (advances_rules .stringBody).sound fun _ _ _ => .refl _ _
    exact .behind advances_fragment fun left => .orElse (tail ";" (by simp) _) (.orElse (tail "," (by simp) _) (.refl _ _))
  | stringExpression =>
    exact (atCursor .stringBody (by decide)).bind (advances_rules .stringBody).sound fun _ _ _ => .refl _ _
  | conjunction =>
    exact .behind advances_comparison fun left =>
      .orElse (agree_joined (by simp) (advances_rules .conjunction) (behind .conjunction)) (.refl _ _)
  | condition =>
    exact .behind advances_comparison fun left =>
      .orElse (agree_joined (by simp) (advances_rules .conjunction) (behind .conjunction)) <|
        .orElse (agree_joined (by simp) (advances_rules .condition) (behind .condition)) (.refl _ _)
  | statement =>
    refine .behind (.firstOf advances_statementRules) fun first => .orElse (.behind advances_spaces fun _ => ?_) (.refl _ _)
    exact agree_literal (by simp) fun _ => .behind advances_spaces fun _ =>
      (behind .statement).bind (advances_rules .statement).sound fun _ _ _ => .refl _ _

end

/-! ## (3) Enough rounds -/

theorem rightBelow_iterate (r : Rules) (n : Nat) : RightBelow n (equations^[n] r) := by
  induction n with
  | zero => exact fun _ _ h => absurd h (Nat.not_lt_zero _)
  | succ n ih =>
    rw [Function.iterate_succ_apply']
    exact rightBelow_equations ih

/-- Whatever rules the rounds begin with, enough of them reply as the grammar does. -/
theorem run_iterate_equations (r : Rules) (k : Nonterminal) {c : Cursor} {n : Nat} (h : 5 * (c.rest.length + 1) ≤ n) :
    (equations^[n] r k).run c = (rules k).run c := by
  refine (rightBelow_iterate r n k c ?_).symm
  have := k.rank_lt
  simp only [Nonterminal.size]
  omega

/-- The grammar is the only solution of its equations. -/
theorem rules_unique {r : Rules} (h : r = equations r) : r = rules := by
  funext k
  refine congrArg Rule.mk (funext fun c => ?_)
  have fixed : equations^[5 * (c.rest.length + 1)] r = r := Function.iterate_fixed h.symm _
  have settled := run_iterate_equations r k (Nat.le_refl (5 * (c.rest.length + 1)))
  rwa [fixed] at settled

end LineBasic.Grammar
