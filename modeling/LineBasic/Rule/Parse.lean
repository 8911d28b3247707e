import LineBasic.Failure

/-
  LineBasic.Rule.Parse — reading the whole of a span, or of a text, by a rule.

  Spaces may follow what the rule reads. If anything else does, or the rule finds nothing, the error is that of the
  farthest miss.
-/

namespace LineBasic.Rule

variable {α : Type}

/-- The rule, spaces, and the end of the span. -/
def whole (rule : Rule α) : Rule α := do
  let value ← rule
  spaces
  endOfLine
  pure value

/-- Reads all of a span that begins at `offset` and holds the characters `span`. -/
def parseSpan (rule : Rule α) (offset : Nat) (span : Text) : Except Failure α :=
  let reply := rule.whole.run ⟨offset, span⟩
  match reply.outcome with
  | .found value _ => .ok value
  | .missing => .error (.badText ((Frontier.start offset).recordAll reply.misses).error)
  | .aborted cause => .error (.ofAbort cause)

/-- Reads all of a text. -/
def parse (rule : Rule α) (text : Text) : Except Failure α := rule.parseSpan 0 text

end LineBasic.Rule
