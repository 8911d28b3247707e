import LineBasic.Rule.Lexeme

/-
  LineBasic.Failure — why a text has no tree or no program, and the message that says so.

  Most texts that fail have a parse error: a place, what was expected there, and a description. The other failures have
  no place.
-/

namespace LineBasic

/-- The error at one place of a text. A fatal error was aborted on, not searched for, and has nothing expected. -/
structure ParseError where
  fatal : Bool
  offset : Nat
  expected : List String
  description : String
  deriving DecidableEq, Repr

namespace ParseError

/-- Several things in one phrase. -/
def anyOf : List String → String
  | [] => "something else"
  | [item] => item
  | items => "one of " ++ String.intercalate ", " items.dropLast ++ " or " ++ items.getLastD ""

/-- The error that one of `expected` was wanted at `offset`. -/
def wanting (offset : Nat) (expected : List String) : ParseError :=
  { fatal := false, offset, expected := ascending expected, description := "expected " ++ anyOf (ascending expected) }

/-- The same error in other words. -/
def describedAs (e : ParseError) (description : String) : ParseError := { e with description }

/-- The error that stops a parse at `offset`. -/
def stop (offset : Nat) (description : String) : ParseError := { fatal := true, offset, expected := [], description }

/-- The message names the place in the text. -/
def message (text : Text) (e : ParseError) : String :=
  let p := text.position e.offset
  "Line " ++ toString p.line ++ ", column " ++ toString p.column ++ ": " ++ e.description

end ParseError

/-- The error for the farthest misses. -/
def Frontier.error (f : Frontier) : ParseError := .wanting f.farthest (f.wanted.map Wanted.describe)

/-- Why there is no result. -/
inductive Failure where
  | badText (error : ParseError)
  /-- An integer has too many digits to be read, and then they are counted, or to be written. -/
  | tooManyDigits (count : Option Nat)
  | lineNumberTooLong (count : Nat)
  | emptyProgram
  deriving DecidableEq, Repr

namespace Failure

def ofAbort : Abort → Failure
  | .unknownFunction offset name => .badText (.stop offset ("unknown function " ++ String.ofList name))
  | .tooManyDigits count => .tooManyDigits (some count)

def digitLimitMessage (count : Option Nat) : String :=
  let counted := match count with
    | some n => ": value has " ++ toString n ++ " digits"
    | none => ""
  "Exceeds the limit (" ++ toString Rule.digitLimit ++ " digits) for integer string conversion" ++ counted ++
    "; use sys.set_int_max_str_digits() to increase the limit"

def message (text : Text) : Failure → String
  | badText error => error.message text
  | tooManyDigits count => digitLimitMessage count
  | lineNumberTooLong count => "Error trying to process rule \"LINE_NUMBER\":\n\n" ++ digitLimitMessage (some count)
  | emptyProgram => "A program needs at least one line"

end Failure

end LineBasic
