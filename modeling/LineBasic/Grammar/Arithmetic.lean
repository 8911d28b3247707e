import LineBasic.Rule.Lexeme
import LineBasic.Tree

/-
  LineBasic.Grammar.Arithmetic — arithmetic expressions.

  The operators bind in the order `*`, `/`, `+`, `-`, the tightest first, and each one groups to the right: `1-2-3` is
  `1-(2-3)` and `8/4*2` is `8/(4*2)`. The left operand of an operator never holds that operator or a looser one outside
  parentheses. If no right operand follows an operator, the left one stands alone and the operator is left unread.
  Spaces may stand around operators and inside parentheses.
-/

namespace LineBasic.Grammar

open Rule

/-- An operand, and a repetition of the same level after the operator `symbol`, if there is one. -/
def level (op : BinaryOp) (symbol : String) (operand : Rule Expression) : Rule Expression :=
  fix fun same => do
    let left ← operand
    (do spaces; literal symbol; spaces; let right ← same; pure (.binary op left right)) <|> pure left

/-- The four levels of operators over atoms. -/
def operators (atom : Rule Expression) : Rule Expression :=
  level .subtract "-" (level .add "+" (level .divide "/" (level .multiply "*" atom)))

def parenthesised (expression : Rule Expression) : Rule Expression := do
  literal "("; spaces
  let inner ← expression
  spaces; literal ")"
  pure inner

def builtIn? (name : Text) : Option BuiltIn :=
  if name = ['I', 'N', 'T'] then some .int else if name = ['R', 'N', 'D'] then some .rnd else none

/-- A call of a built-in function. A call of any other function aborts the parse. -/
def functionCall (expression : Rule Expression) : Rule Expression := do
  let start ← here
  let name ← functionName
  match builtIn? name with
  | some function => do
    let argument ← parenthesised expression
    pure (.call function argument)
  | none => abort (.unknownFunction start.offset name)

/-- A minus sign before an atom multiplies it by -1. -/
def negation (atom : Rule Expression) : Rule Expression := do
  literal "-"; spaces
  let operand ← atom
  pure (.binary .multiply (.integer (-1)) operand)

/-- A name and up to four indices: those that are missing are 0, and those after the fourth are dropped. -/
def fourIndices (name : Char) (indices : List Expression) : ArrayReference :=
  let index (i : Nat) := indices.getD i (.integer 0)
  { name, first := index 0, second := index 1, third := index 2, fourth := index 3 }

def arrayReferenceOf (expression : Rule Expression) : Rule ArrayReference := do
  let name ← letter
  literal "("; spaces
  let indices ← separated "," expression <|> pure []
  spaces; literal ")"
  pure (fourIndices name indices)

/-- What an atom may be, in the order in which it is tried. -/
def atomAlternatives (expression atom : Rule Expression) : List (Rule Expression) :=
  [ parenthesised expression,
    functionCall expression,
    negation atom,
    do let x ← real; pure (.real x),
    do let n ← integer; pure (.integer n),
    do let a ← arrayReferenceOf expression; pure a.expression,
    do let name ← letter; pure (.scalar name) ]

def atomOf (expression : Rule Expression) : Rule Expression :=
  fix fun atom => firstOf (atomAlternatives expression atom)

def expression : Rule Expression := fix fun inner => operators (atomOf inner)

def arrayReference : Rule ArrayReference := arrayReferenceOf expression

end LineBasic.Grammar
