import LineBasic.Text

/-
  LineBasic.Text.Excerpt — the surroundings of an offset, with a caret under it.

  The excerpt is one line of the text, clipped to a number of characters on either side, and a second line that holds
  the caret. Tabs are wide: each one reaches to the next multiple of eight columns, and a carriage return starts the
  columns again while keeping its own place.
-/

namespace LineBasic.Text

def tabStop : Nat := 8

/-- How many columns a text takes when its first character stands in `column`. -/
def expandedWidth (column : Nat) : Text → Nat
  | [] => 0
  | c :: rest =>
    if c = '\t' then
      let width := tabStop - column % tabStop
      width + expandedWidth (column + width) rest
    else if c = '\n' ∨ c = '\r' then 1 + expandedWidth 0 rest
    else 1 + expandedWidth (column + 1) rest

/-- The line of `offset`, at most `span` characters of it on either side, and a caret below the offset. -/
def excerpt (t : Text) (offset span : Nat) : Text :=
  let before := (t.slice (offset - span) offset).lastLine
  let after := (t.slice offset (offset + span)).firstLine
  before ++ after ++ '\n' :: List.replicate (before.expandedWidth 0) ' ' ++ ['^', '\n']

end LineBasic.Text
