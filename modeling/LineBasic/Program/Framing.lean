import LineBasic.Failure

/-
  LineBasic.Program.Framing — the frame of a source text: lines, each with a number, blanks and a statement.

  A line ends with a carriage return and a line feed, with one of the two alone, or with the text; after the last line
  there may be one line break. A line begins with digits, then there are spaces or tabs, and the rest is its statement.
  The first line that is not so makes the error: the piece that is missing, where it should begin.
-/

namespace LineBasic.Framing

/-- A line of the source and the offset at which it begins. -/
structure SourceLine where
  offset : Nat
  text : Text
  deriving DecidableEq, Repr

/-- The digits of a line's number, and its statement with the offset at which that begins. -/
structure NumberedLine where
  digits : Text
  offset : Nat
  statement : Text
  deriving DecidableEq, Repr

def isBreak (c : Char) : Bool := c = '\r' || c = '\n'

def isBlank (c : Char) : Bool := c = ' ' || c = '\t'

/-- Puts one more character before the first line. -/
def extendFirst (offset : Nat) (c : Char) : List SourceLine → List SourceLine
  | [] => [⟨offset, [c]⟩]
  | line :: rest => ⟨offset, c :: line.text⟩ :: rest

/-- All lines of a text that begins at `offset`. After a line break there is always one more, if only an empty one. -/
def splitLines (offset : Nat) : Text → List SourceLine
  | [] => [⟨offset, []⟩]
  | '\r' :: '\n' :: rest => ⟨offset, []⟩ :: splitLines (offset + 2) rest
  | c :: rest =>
    if isBreak c then ⟨offset, []⟩ :: splitLines (offset + 1) rest
    else extendFirst offset c (splitLines (offset + 1) rest)

/-- Leaves out an empty line at the end, but not the first line. -/
def dropFinalEmpty : List SourceLine → List SourceLine
  | first :: rest => first :: if (rest.getLast?.map SourceLine.text) = some [] then rest.dropLast else rest
  | [] => []

def sourceLines (t : Text) : List SourceLine := dropFinalEmpty (splitLines 0 t)

/-- The pieces of one line. -/
def frameLine (line : SourceLine) : Except ParseError NumberedLine :=
  let digits := line.text.takeWhile Char.isDigit
  let afterDigits := line.text.dropWhile Char.isDigit
  let blanks := afterDigits.takeWhile isBlank
  let statement := afterDigits.dropWhile isBlank
  let missing (offset : Nat) (piece : Wanted) : Except ParseError NumberedLine :=
    .error (.wanting offset [piece.describe])
  if digits = [] then missing line.offset .lineNumber
  else if blanks = [] then missing (line.offset + digits.length) .blanks
  else if statement = [] then missing (line.offset + digits.length + blanks.length) .statement
  else .ok ⟨digits, line.offset + digits.length + blanks.length, statement⟩

/-- All lines of a source text in their order. -/
def frame (t : Text) : Except ParseError (List NumberedLine) := (sourceLines t).mapM frameLine

/-- The number of a line. Too many digits are a failure. -/
def NumberedLine.number (line : NumberedLine) : Except Failure Int :=
  if Rule.digitLimit < line.digits.length then .error (.lineNumberTooLong line.digits.length)
  else .ok (decimalValue line.digits)

end LineBasic.Framing
