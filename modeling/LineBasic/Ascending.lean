/-
  LineBasic.Ascending — strictly ascending lists: the members of a list in order and without repeats.
-/

namespace LineBasic

variable {α : Type} [LT α] [DecidableLT α]

/-- Puts `a` into its place, unless it is there already. -/
def insertAscending (a : α) : List α → List α
  | [] => [a]
  | b :: rest => if a < b then a :: b :: rest else if b < a then b :: insertAscending a rest else b :: rest

/-- The members of a list, ascending and without repeats. -/
def ascending (l : List α) : List α := l.foldr insertAscending []

end LineBasic
