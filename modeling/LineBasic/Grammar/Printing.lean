import LineBasic.Grammar.Arithmetic

/-
  LineBasic.Grammar.Printing — string expressions: fragments with `;` or `,` between them and perhaps one at the end.

  A separator stands right after its fragment; spaces may follow it. `TAB(` is tried before a number, which would take
  it for a call of an unknown function.
-/

namespace LineBasic.Grammar

open Rule

def tab : Rule StringExpression := do
  literal "TAB("; spaces
  let column ← integer
  spaces; literal ")"
  pure (.tab column)

def fragmentOf (expression : Rule Expression) : Rule StringExpression := firstOf
  [ do let text ← quoted; pure (.literal text),
    tab,
    do let value ← expression; pure (.number value) ]

def fragment : Rule StringExpression := fragmentOf expression

/-- Fragments joined to the right. A separator with no fragment after it is left unread. -/
def stringBody : Rule StringExpression :=
  fix fun body => do
    let left ← fragment
    (do literal ";"; spaces; let right ← body; pure (.concat left right))
      <|> (do literal ","; spaces; let right ← body; pure (.concatTab left right))
      <|> pure left

/-- A body and perhaps a separator at its end. -/
def stringExpression : Rule StringExpression := do
  let body ← stringBody
  (do literal ","; pure (.trailingTab body))
    <|> (do literal ";"; pure (.suppressNewline body))
    <|> pure body

end LineBasic.Grammar
