/-
  LineBasic.Text — a text is the list of its characters, and an offset counts the characters before a place.

  Spans of a text, and the line and column of an offset. Only a line feed ends a line here; an offset may lie beyond
  the text, and then it counts on in the last line.
-/

namespace LineBasic

/-- A text by its characters. -/
abbrev Text := List Char

/-- Line and column, both counted from 1. -/
structure Position where
  line : Nat
  column : Nat
  deriving DecidableEq, Repr

namespace Text

/-- The characters from offset `start` up to, not including, `stop`; none if `stop` does not follow `start`. -/
def slice (t : Text) (start stop : Nat) : Text := (t.take stop).drop start

/-- The part of a text after its last line feed. -/
def lastLine (t : Text) : Text := (t.reverse.takeWhile (· ≠ '\n')).reverse

/-- The part of a text before its first line feed. -/
def firstLine (t : Text) : Text := t.takeWhile (· ≠ '\n')

/-- The offset at which the line that holds `offset` begins. -/
def lineStart (t : Text) (offset : Nat) : Nat := ((t.take offset).reverse.dropWhile (· ≠ '\n')).length

/-- Where `offset` is: one line feed more before it is one line further down. -/
def position (t : Text) (offset : Nat) : Position :=
  { line := (t.take offset).count '\n' + 1, column := offset - t.lineStart offset + 1 }

end Text

end LineBasic
