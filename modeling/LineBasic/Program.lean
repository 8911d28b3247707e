import LineBasic.Failure
import LineBasic.Tree

/-
  LineBasic.Program — a program as a table of lines, how numbered statements become one, and walking through it.

  The lines stand in ascending order of their numbers, each number once, and every line names the one after it. If
  numbers repeat, the statement that came last is kept and every further one is warned of. A warning shows the number,
  so there is no program if that has too many digits.
-/

namespace LineBasic

/-- What the last line names as the line after it. -/
def endOfProgram : LineNumber := -1

structure ProgramLine where
  number : LineNumber
  statement : Statement
  next : LineNumber
  deriving DecidableEq, Repr

structure Program where
  /-- The number of the first line. -/
  entry : LineNumber
  lines : List ProgramLine
  deriving DecidableEq, Repr

/-- What is said about a program that there is nonetheless. A number that is said has not too many digits. -/
inductive Warning where
  | repeatedLine (number : LineNumber) (short : digitCount number ≤ Rule.digitLimit)
  deriving DecidableEq, Repr

namespace Warning

/-- The warning that a number comes once more, if the number can be written into it. -/
def ofRepeat (number : LineNumber) : Except Failure Warning :=
  if short : digitCount number ≤ Rule.digitLimit then .ok (.repeatedLine number short)
  else .error (.tooManyDigits none)

def message : Warning → String
  | repeatedLine number _ => "Line " ++ toString number ++ " is defined more than once; keeping the last one"

end Warning

/-! ## Putting a program together -/

/-- The statement kept for a number, and how many came before it. -/
structure TableEntry where
  number : LineNumber
  statement : Statement
  repeats : Nat
  deriving DecidableEq, Repr

/-- Puts a numbered statement into its place, over the one that is there. -/
def placeStatement (number : LineNumber) (statement : Statement) : List TableEntry → List TableEntry
  | [] => [⟨number, statement, 0⟩]
  | e :: rest =>
    if number < e.number then ⟨number, statement, 0⟩ :: e :: rest
    else if number = e.number then ⟨number, statement, e.repeats + 1⟩ :: rest
    else e :: placeStatement number statement rest

/-- The table of numbered statements, given in the order of their source. -/
def tabulate (numbered : List (LineNumber × Statement)) : List TableEntry :=
  numbered.foldl (fun table line => placeStatement line.1 line.2 table) []

/-- Links every entry to the one after it. -/
def linkLines : List TableEntry → List ProgramLine
  | [] => []
  | [e] => [⟨e.number, e.statement, endOfProgram⟩]
  | e :: after :: rest => ⟨e.number, e.statement, after.number⟩ :: linkLines (after :: rest)

/-- Each number as often as it came again. -/
def repeatedNumbers (table : List TableEntry) : List LineNumber :=
  table.flatMap fun e => List.replicate e.repeats e.number

/-- Makes a program of numbered statements, and the warnings about them in ascending order. There has to be a statement,
    and no number that is warned of may have too many digits. -/
def assemble (numbered : List (LineNumber × Statement)) : Except Failure (Program × List Warning) :=
  match tabulate numbered with
  | [] => .error .emptyProgram
  | first :: others => do
    let warnings ← (repeatedNumbers (first :: others)).mapM Warning.ofRepeat
    pure ({ entry := first.number, lines := linkLines (first :: others) }, warnings)

/-! ## Walking -/

/-- How a walk ends. -/
inductive WalkEnd where
  | finished
  | missingLine (number : LineNumber)
  | outOfSteps
  deriving DecidableEq, Repr

structure Walk where
  visited : List ProgramLine
  ending : WalkEnd
  deriving DecidableEq, Repr

namespace Program

def line? (p : Program) (number : LineNumber) : Option ProgramLine := p.lines.find? fun l => l.number = number

/-- Visits the line `number` and the lines after it, at most `steps` of them. -/
def walkFrom (p : Program) : Nat → LineNumber → Walk
  | steps, number =>
    if number = endOfProgram then ⟨[], .finished⟩
    else match p.line? number, steps with
      | none, _ => ⟨[], .missingLine number⟩
      | some _, 0 => ⟨[], .outOfSteps⟩
      | some line, steps + 1 =>
        let w := p.walkFrom steps line.next
        ⟨line :: w.visited, w.ending⟩

/-- Visits the lines from the entry on, each one by its number in the line before. -/
def walk (p : Program) : Walk := p.walkFrom p.lines.length p.entry

end Program

end LineBasic
