import LineBasic.Number.Binary64
import LineBasic.Rule.Fix

/-
  LineBasic.Rule.Lexeme — the rules that read characters: spaces, literal text, numbers, names and quoted text.

  A lexeme is a function from the characters ahead to its value and its length. Digits and letters are those of ASCII,
  and a space is U+0020 only: tabs and line breaks are never skipped. Every lexeme is as long as it can be.
-/

namespace LineBasic

namespace Lexeme

/-- One or more digits. -/
def digits (ahead : Text) : Option (Text × Nat) :=
  let run := ahead.takeWhile Char.isDigit
  if run = [] then none else some (run, run.length)

/-- Digits, a point, digits. -/
def real (ahead : Text) : Option (Binary64 × Nat) :=
  let whole := ahead.takeWhile Char.isDigit
  match ahead.dropWhile Char.isDigit with
  | '.' :: rest =>
    let fraction := rest.takeWhile Char.isDigit
    if whole = [] ∨ fraction = [] then none
    else some (Binary64.ofDecimal whole fraction, whole.length + 1 + fraction.length)
  | _ => none

def letter : Text → Option (Char × Nat)
  | c :: _ => if c.isAlpha then some (c, 1) else none
  | [] => none

/-- The text between two double quotes. There are no escapes. -/
def quoted : Text → Option (Text × Nat)
  | '"' :: rest =>
    let body := rest.takeWhile (· ≠ '"')
    if body.length < rest.length then some (body, body.length + 2) else none
  | _ => none

/-- Two or more capitals with an opening parenthesis right after them. The parenthesis is not part of the name. -/
def functionName (ahead : Text) : Option (Text × Nat) :=
  let name := ahead.takeWhile Char.isUpper
  if 2 ≤ name.length ∧ (ahead.drop name.length).head? = some '(' then some (name, name.length) else none

end Lexeme

namespace Rule

variable {α : Type}

/-- Reads a lexeme, or misses what is wanted in its place. -/
def lexeme (wanted : Wanted) (scan : Text → Option (α × Nat)) : Rule α where
  run c :=
    match scan c.rest with
    | some (value, length) => ⟨.found value (c.advance length), []⟩
    | none => ⟨.missing, [⟨c.offset, wanted⟩]⟩

/-- Skips spaces. -/
def spaces : Rule Unit := ⟨fun c => ⟨.found () (c.advance (c.rest.takeWhile (· = ' ')).length), []⟩⟩

/-- Reads exactly the characters of `spelling`. -/
def literal (spelling : String) : Rule Unit :=
  lexeme (.symbol spelling) fun ahead =>
    if spelling.toList.isPrefixOf ahead then some ((), spelling.toList.length) else none

/-- A keyword and any spaces after it. -/
def keyword (spelling : String) : Rule Unit := do
  literal spelling
  spaces

/-- The most digits that an integer may have, leading zeros included. -/
def digitLimit : Nat := 4300

/-- An unsigned integer. Too many digits abort the parse. -/
def integer : Rule Int := do
  let digits ← lexeme .integer Lexeme.digits
  if digitLimit < digits.length then abort (.tooManyDigits digits.length) else pure (decimalValue digits)

/-- An unsigned decimal fraction of any length. -/
def real : Rule Binary64 := lexeme .realNumber Lexeme.real

/-- The name of a variable. -/
def letter : Rule Char := lexeme .variableName Lexeme.letter

def quoted : Rule Text := lexeme .quotedText Lexeme.quoted

def functionName : Rule Text := lexeme .functionName Lexeme.functionName

/-- Everything up to the end of the span. -/
def restOfLine : Rule Unit := ⟨fun c => ⟨.found () c.finish, []⟩⟩

/-- Nothing is left in the span. -/
def endOfLine : Rule Unit where
  run c := if c.rest = [] then ⟨.found () c, []⟩ else ⟨.missing, [⟨c.offset, .endOfLine⟩]⟩

/-- One or more items with `separator` between them. A separator has to be followed by one more item. -/
def separated (separator : String) (item : Rule α) : Rule (List α) :=
  fix fun items => do
    let first ← item
    if ← succeeds (do spaces; literal separator; spaces) then
      let others ← items
      pure (first :: others)
    else pure [first]

end Rule

end LineBasic
