import LineBasic.Text.Printable
import LineBasic.Text

/-
  LineBasic.Text.Quoted — a text in quotes, on one line and with nothing hidden in it.

  The quotes are single ones, and double ones only around a text that holds a single quote and no double quote. The
  quote in use and the backslash are escaped, tab and the two line breaks have names, and every other character that
  does not print is written by its code point.
-/

namespace LineBasic.Text

/-- The quote to put around a text. -/
def quoteFor (t : Text) : Char := if '\'' ∈ t ∧ '"' ∉ t then '"' else '\''

/-- The lower-case hexadecimal digits of `n`, padded with zeros to `width`. -/
def hexadecimal (width n : Nat) : Text := (Nat.toDigits 16 n).leftpad width '0'

/-- A character that does not print, by its code point. -/
def codePointEscape (c : Char) : Text :=
  let n := c.toNat
  if n < 0x100 then '\\' :: 'x' :: hexadecimal 2 n
  else if n < 0x10000 then '\\' :: 'u' :: hexadecimal 4 n
  else '\\' :: 'U' :: hexadecimal 8 n

/-- One character inside quotes of the kind `quote`. -/
def escape (quote c : Char) : Text :=
  if c = quote ∨ c = '\\' then ['\\', c]
  else if c = '\t' then ['\\', 't']
  else if c = '\n' then ['\\', 'n']
  else if c = '\r' then ['\\', 'r']
  else if isPrintable c then [c]
  else codePointEscape c

def quoted (t : Text) : Text := quoteFor t :: t.flatMap (escape (quoteFor t)) ++ [quoteFor t]

end LineBasic.Text
