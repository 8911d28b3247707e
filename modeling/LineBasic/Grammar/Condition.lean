import LineBasic.Grammar.Arithmetic

/-
  LineBasic.Grammar.Condition — conditions: comparisons joined by AND and OR.

  After a comparison a chain of ANDs is tried first, and it ends the condition: an OR after it is left unread, so that
  `A=1 AND B=2 OR C=3` is no condition. An OR has a lone comparison on its left and any condition on its right.
-/

namespace LineBasic.Grammar

open Rule

/-- An operator that another one begins with comes after it. -/
def comparisonOperator : Rule Comparison := firstOf
  [ do literal "<>"; pure .notEqual,
    do literal "<="; pure .lessOrEqual,
    do literal ">="; pure .greaterOrEqual,
    do literal "="; pure .equal,
    do literal "<"; pure .less,
    do literal ">"; pure .greater ]

def comparisonOf (expression : Rule Expression) : Rule Condition := do
  let left ← expression
  spaces
  let op ← comparisonOperator
  spaces
  let right ← expression
  pure (.compare op left right)

def comparison : Rule Condition := comparisonOf expression

/-- What `left` is joined to by the connective `spelling`. -/
def joined (op : Connective) (spelling : String) (left : Condition) (right : Rule Condition) : Rule Condition := do
  spaces; literal spelling; spaces
  let right ← right
  pure (.connect op left right)

/-- Comparisons joined by AND. -/
def conjunction : Rule Condition :=
  fix fun same => do
    let left ← comparison
    joined .and "AND" left same <|> pure left

def condition : Rule Condition :=
  fix fun same => do
    let left ← comparison
    joined .and "AND" left conjunction <|> joined .or "OR" left same <|> pure left

end LineBasic.Grammar
