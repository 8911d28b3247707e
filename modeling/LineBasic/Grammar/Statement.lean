import LineBasic.Grammar.Condition
import LineBasic.Grammar.Printing

/-
  LineBasic.Grammar.Statement — statements, one rule for each keyword, and `:` between the statements of a line.

  Spaces may follow a keyword but need not. The keyword of an assignment may be left out; once it is read, what follows
  has to be an assignment. A clause that begins with a keyword has to be complete once the keyword is read.
-/

namespace LineBasic.Grammar

open Rule

def remarkStatement : Rule Statement := do
  literal "REM"; restOfLine
  pure .remark

/-- Without an operand PRINT writes the empty text. -/
def printStatementOf (stringExpression : Rule StringExpression) : Rule Statement := do
  keyword "PRINT"
  let written ← stringExpression <|> pure (.literal [])
  pure (.print written)

def printStatement : Rule Statement := printStatementOf stringExpression

def targetOf (arrayReference : Rule ArrayReference) : Rule Target := firstOf
  [ do let a ← arrayReference; pure (.array a),
    do let name ← letter; pure (.scalar name) ]

def target : Rule Target := targetOf arrayReference

def assignStatementOf (target : Rule Target) (expression : Rule Expression) : Rule Statement := do
  let _ ← succeeds (keyword "LET")
  let target ← target
  spaces; literal "="; spaces
  let value ← expression
  pure (.assign target value)

def assignStatement : Rule Statement := assignStatementOf target expression

def finishStatement : Rule Statement := do
  literal "END"
  pure .finish

def gotoStatement : Rule Statement := do
  keyword "GOTO"
  let line ← integer
  pure (.goto line)

def gosubStatement : Rule Statement := do
  keyword "GOSUB"
  let line ← integer
  pure (.gosub line)

def ifStatementOf (condition : Rule Condition) : Rule Statement := do
  keyword "IF"
  let test ← condition
  spaces; keyword "THEN"
  let line ← integer
  pure (.ifThen test line)

def ifStatement : Rule Statement := ifStatementOf condition

/-- The step of a loop, which is 1 if it is not given. -/
def stepClauseOf (expression : Rule Expression) : Rule Expression := do
  if ← succeeds (do spaces; keyword "STEP") then expression else pure (.integer 1)

def stepClause : Rule Expression := stepClauseOf expression

def forStatementOf (expression : Rule Expression) : Rule Statement := do
  keyword "FOR"
  let counter ← letter
  spaces; literal "="; spaces
  let start ← expression
  spaces; keyword "TO"
  let stop ← expression
  let step ← stepClauseOf expression
  pure (.forLoop counter start stop step)

def forStatement : Rule Statement := forStatementOf expression

def nextStatement : Rule Statement := do
  keyword "NEXT"
  let counters ← separated "," letter
  pure (.nextLoop counters)

/-- The names in a list of fragments joined by `,` if each of them is a scalar. -/
def inputNames? : StringExpression → Option (List Char)
  | .number (.scalar name) => some [name]
  | .concatTab (.number (.scalar name)) rest => (inputNames? rest).map (name :: ·)
  | _ => none

/-- The prompt and the names of an operand of INPUT. Without a prompt it is the empty text. -/
def inputOperand? : StringExpression → Option (Text × List Char)
  | .concat (.literal prompt) rest => (inputNames? rest).map fun names => (prompt, names)
  | operand => (inputNames? operand).map fun names => ([], names)

/-- The operand is read as a string expression; one of another shape is missed where it begins. -/
def inputStatementOf (stringExpression : Rule StringExpression) : Rule Statement := do
  keyword "INPUT"
  let start ← here
  let operand ← stringExpression
  match inputOperand? operand with
  | some (prompt, names) => pure (.input prompt names)
  | none => want start.offset .inputOperand

def inputStatement : Rule Statement := inputStatementOf stringExpression

def returnStatement : Rule Statement := do
  literal "RETURN"
  pure .returnSub

def dimStatementOf (arrayReference : Rule ArrayReference) : Rule Statement := do
  keyword "DIM"
  let arrays ← separated "," arrayReference
  pure (.dim arrays)

def dimStatement : Rule Statement := dimStatementOf arrayReference

def onGotoStatement : Rule Statement := do
  keyword "ON"
  let selector ← letter
  spaces; keyword "GOTO"
  let lines ← separated "," integer
  pure (.onGoto selector lines)

/-- The rules for single statements in the order in which they are tried. -/
def statementRules : List (Rule Statement) :=
  [ remarkStatement, printStatement, assignStatement, finishStatement, gotoStatement, gosubStatement, ifStatement,
    forStatement, nextStatement, inputStatement, returnStatement, dimStatement, onGotoStatement ]

/-- One of `rules`, and after a `:` another such statement. A `:` without one is left unread. -/
def statementOf (rules : List (Rule Statement)) : Rule Statement :=
  fix fun same => do
    let first ← firstOf rules
    (do spaces; literal ":"; spaces; let rest ← same; pure (.sequence first rest)) <|> pure first

def statement : Rule Statement := statementOf statementRules

end LineBasic.Grammar
