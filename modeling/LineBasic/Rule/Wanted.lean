import LineBasic.Ascending
import LineBasic.Text.Quoted

/-
  LineBasic.Rule.Wanted — what a rule wanted to see, where it missed it, and the farthest of the misses.

  A rule that fails goes on to its alternatives, so most misses do not matter. What an error tells is the farthest
  place of any miss and everything that was wanted there.
-/

namespace LineBasic

/-- Something a rule may want to see at an offset. -/
inductive Wanted where
  | symbol (spelling : String)
  | integer
  | realNumber
  | variableName
  | quotedText
  | functionName
  | inputOperand
  | endOfLine
  | lineNumber
  | blanks
  | statement
  | other (description : String)
  deriving DecidableEq, Repr

/-- The words for it in an error. -/
def Wanted.describe : Wanted → String
  | symbol spelling => String.ofList (Text.quoted spelling.toList)
  | integer => "an integer"
  | realNumber => "a real number"
  | variableName => "a variable name"
  | quotedText => "a quoted string"
  | functionName => "a function name"
  | inputOperand => "an optional \"prompt\"; and variable names"
  | endOfLine => "end of line"
  | lineNumber => "a line number"
  | blanks => "spaces or tabs"
  | statement => "a statement"
  | other description => description

/-- Something wanted at an offset that was not there. -/
structure Miss where
  offset : Nat
  wanted : Wanted
  deriving DecidableEq, Repr

/-- The farthest offset of the misses so far, and what was wanted there. -/
structure Frontier where
  farthest : Nat
  wanted : List Wanted
  deriving DecidableEq, Repr

namespace Frontier

/-- Nothing is missed yet; misses before `offset` will not count. -/
def start (offset : Nat) : Frontier := ⟨offset, []⟩

/-- A farther miss replaces what was wanted, one at the same offset joins it. -/
def record (f : Frontier) (m : Miss) : Frontier :=
  if f.farthest < m.offset then ⟨m.offset, [m.wanted]⟩
  else if m.offset = f.farthest then ⟨f.farthest, m.wanted :: f.wanted⟩
  else f

def recordAll (f : Frontier) (misses : List Miss) : Frontier := misses.foldl record f

/-- What was wanted at the farthest offset, in words, ascending and without repeats. -/
def expected (f : Frontier) : List String := ascending (f.wanted.map Wanted.describe)

end Frontier

end LineBasic
