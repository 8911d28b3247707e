import LineBasic.Grammar.Statement
import LineBasic.Rule.Parse

/-
  LineBasic.Grammar.Reading — the tree of a whole text. Spaces may stand at the end of it, but not at its beginning.
-/

namespace LineBasic

def Expression.ofText (t : Text) : Except Failure Expression := Grammar.expression.parse t

def StringExpression.ofText (t : Text) : Except Failure StringExpression := Grammar.stringExpression.parse t

def Condition.ofText (t : Text) : Except Failure Condition := Grammar.condition.parse t

def Statement.ofText (t : Text) : Except Failure Statement := Grammar.statement.parse t

end LineBasic
