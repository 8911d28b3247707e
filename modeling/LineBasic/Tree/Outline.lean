import LineBasic.Tree.Node

/-
  LineBasic.Tree.Outline — a tree as plain data for display: every node by its kind, with its fields by name in the
  order in which the node holds them.
-/

namespace LineBasic

inductive Outline where
  | text (characters : Text)
  | integer (number : Int)
  | real (number : Binary64)
  | tuple (items : List Outline)
  | node (kind : String) (fields : List (String × Outline))
  deriving Repr

namespace Outline

def word (spelling : String) : Outline := text spelling.toList

def name (c : Char) : Outline := text [c]

def names (cs : List Char) : Outline := tuple (cs.map name)

def lines (ns : List LineNumber) : Outline := tuple (ns.map integer)

/-- The kind of a node as it is displayed: in green. -/
def label (kind : String) : String := "\x1b[92m" ++ kind ++ "\x1b[0m"

end Outline

/-! ## Operators by name -/

def BinaryOp.outline : BinaryOp → Outline
  | add => .word "ADD"
  | subtract => .word "SUBTRACT"
  | multiply => .word "MULTIPLY"
  | divide => .word "DIVIDE"

def BuiltIn.spelling : BuiltIn → String
  | int => "INT"
  | rnd => "RND"

def Comparison.outline : Comparison → Outline
  | equal => .word "EQUAL"
  | notEqual => .word "NOT_EQUAL"
  | less => .word "LESS"
  | greater => .word "GREATER"
  | lessOrEqual => .word "LESS_OR_EQUAL"
  | greaterOrEqual => .word "GREATER_OR_EQUAL"

def Connective.outline : Connective → Outline
  | and => .word "AND"
  | or => .word "OR"

/-! ## Trees -/

def Expression.outline : Expression → Outline
  | integer number => .node "ExpressionInteger" [("number", .integer number)]
  | real number => .node "ExpressionReal" [("number", .real number)]
  | scalar name => .node "ExpressionVariable" [("name", .name name)]
  | array name first second third fourth =>
    .node "ExpressionArray"
      [("name", .name name), ("indices", .tuple [first.outline, second.outline, third.outline, fourth.outline])]
  | binary op left right =>
    .node "ExpressionBinary"
      [("op", op.outline), ("expression_left", left.outline), ("expression_right", right.outline)]
  | call function argument =>
    .node "ExpressionFunction" [("function", .word function.spelling), ("argument", argument.outline)]

def StringExpression.outline : StringExpression → Outline
  | literal text => .node "StringLiteral" [("text", .text text)]
  | number value => .node "StringNumber" [("expression", value.outline)]
  | tab column => .node "StringTab" [("column", .integer column)]
  | concat left right => .node "StringConcat" [("left", left.outline), ("right", right.outline)]
  | concatTab left right => .node "StringConcatTab" [("left", left.outline), ("right", right.outline)]
  | suppressNewline written => .node "StringTrailingSuppressNewline" [("expression", written.outline)]
  | trailingTab written => .node "StringTrailingTab" [("expression", written.outline)]

def Condition.outline : Condition → Outline
  | compare op left right =>
    .node "BooleanComparison"
      [("op", op.outline), ("expression_left", left.outline), ("expression_right", right.outline)]
  | connect op left right =>
    .node "BooleanLogical"
      [("op", op.outline), ("expression_left", left.outline), ("expression_right", right.outline)]

def Statement.outline : Statement → Outline
  | assign target value => .node "StatementLet" [("target", target.expression.outline), ("value", value.outline)]
  | print written => .node "StatementPrint" [("expression", written.outline)]
  | finish => .node "StatementEnd" []
  | goto line => .node "StatementGoto" [("line", .integer line)]
  | ifThen condition line => .node "StatementIf" [("condition", condition.outline), ("line", .integer line)]
  | forLoop counter start stop step =>
    .node "StatementFor"
      [("variable", .name counter), ("start", start.outline), ("end", stop.outline), ("step", step.outline)]
  | nextLoop counters => .node "StatementNext" [("variables", .names counters)]
  | input prompt names => .node "StatementInput" [("prompt", .text prompt), ("variables", .names names)]
  | gosub line => .node "StatementGosub" [("line", .integer line)]
  | returnSub => .node "StatementReturn" []
  | dim arrays => .node "StatementDim" [("arrays", .tuple (arrays.map fun a => a.expression.outline))]
  | remark => .node "StatementRem" []
  | onGoto selector lines => .node "StatementOnGoto" [("variable", .name selector), ("lines", .lines lines)]
  | sequence first rest => .node "StatementSequence" [("first", first.outline), ("rest", rest.outline)]

def Node.outline : Node → Outline
  | expression e => e.outline
  | string s => s.outline
  | condition c => c.outline
  | statement s => s.outline

/-- The kind that an outline has at its root. -/
def Outline.kind : Outline → String
  | node kind _ => kind
  | _ => ""

end LineBasic
