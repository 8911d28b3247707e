import LineBasic.Program
import LineBasic.Tree.Outline

/-
  LineBasic.Program.Outline — a program as plain data for display.
-/

namespace LineBasic

/-- A line: its number, its statement, and the number of the line after it. -/
structure LineOutline where
  number : LineNumber
  statement : Outline
  next : LineNumber
  deriving Repr

structure ProgramOutline where
  entry : LineNumber
  lines : List LineOutline
  deriving Repr

def Program.outline (p : Program) : ProgramOutline :=
  { entry := p.entry, lines := p.lines.map fun l => ⟨l.number, l.statement.outline, l.next⟩ }

end LineBasic
