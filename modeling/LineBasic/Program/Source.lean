import LineBasic.Grammar.Statement
import LineBasic.Program
import LineBasic.Program.Framing
import LineBasic.Rule.Parse

/-
  LineBasic.Program.Source — reading a program from its source text.

  The frame of the whole text comes first, then the numbers of all lines, then their statements in the order of the
  source; the first failure is the result. Offsets in errors count from the start of the whole text.
-/

namespace LineBasic

open Framing

/-- The statement of a framed line. -/
def Framing.NumberedLine.parse (line : NumberedLine) : Except Failure Statement :=
  Grammar.statement.parseSpan line.offset line.statement

/-- The program of a source text, and the warnings about it. -/
def Program.ofSource (source : Text) : Except Failure (Program × List Warning) := do
  let lines ← (frame source).mapError .badText
  let numbers ← lines.mapM NumberedLine.number
  let statements ← lines.mapM NumberedLine.parse
  assemble (numbers.zip statements)

end LineBasic
