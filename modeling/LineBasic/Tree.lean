import LineBasic.Number.Binary64

/-
  LineBasic.Tree — the trees of the language: arithmetic and string expressions, conditions, and statements.

  Names are single characters. Numbers that stand in a tree, line numbers among them, are integers of any size and
  sign; which of these trees a text can have is a matter of the grammar.
-/

namespace LineBasic

inductive BinaryOp where
  | add
  | subtract
  | multiply
  | divide
  deriving DecidableEq, Repr

/-- The functions there are: truncation towards zero, and a random draw scaled by the argument. -/
inductive BuiltIn where
  | int
  | rnd
  deriving DecidableEq, Repr

/-- Arithmetic expressions. Arrays and scalars share their names; an array always has four indices. -/
inductive Expression where
  | integer (number : Int)
  | real (number : Binary64)
  | scalar (name : Char)
  | array (name : Char) (first second third fourth : Expression)
  | binary (op : BinaryOp) (left right : Expression)
  | call (function : BuiltIn) (argument : Expression)
  deriving DecidableEq, Repr

/-- An element of an array, or in a declaration the bounds of an array. -/
structure ArrayReference where
  name : Char
  first : Expression
  second : Expression
  third : Expression
  fourth : Expression
  deriving DecidableEq, Repr

def ArrayReference.expression (a : ArrayReference) : Expression := .array a.name a.first a.second a.third a.fourth

/-- What PRINT writes. -/
inductive StringExpression where
  | literal (text : Text)
  | number (value : Expression)
  /-- Go on in a column. -/
  | tab (column : Int)
  /-- One after the other, with nothing between. -/
  | concat (left right : StringExpression)
  /-- The right one starts at the next tab stop. -/
  | concatTab (left right : StringExpression)
  /-- No line break comes after it. -/
  | suppressNewline (written : StringExpression)
  /-- A tab stop comes after it in place of a line break. -/
  | trailingTab (written : StringExpression)
  deriving DecidableEq, Repr

inductive Comparison where
  | equal
  | notEqual
  | less
  | greater
  | lessOrEqual
  | greaterOrEqual
  deriving DecidableEq, Repr

inductive Connective where
  | and
  | or
  deriving DecidableEq, Repr

inductive Condition where
  | compare (op : Comparison) (left right : Expression)
  | connect (op : Connective) (left right : Condition)
  deriving DecidableEq, Repr

/-- What an assignment changes. -/
inductive Target where
  | scalar (name : Char)
  | array (element : ArrayReference)
  deriving DecidableEq, Repr

def Target.expression : Target → Expression
  | scalar name => .scalar name
  | array element => element.expression

abbrev LineNumber := Int

inductive Statement where
  | assign (target : Target) (value : Expression)
  | print (written : StringExpression)
  | finish
  | goto (line : LineNumber)
  | ifThen (condition : Condition) (line : LineNumber)
  | forLoop (counter : Char) (start stop step : Expression)
  /-- Ends one or more loops, named by their counters. -/
  | nextLoop (counters : List Char)
  | input (prompt : Text) (names : List Char)
  | gosub (line : LineNumber)
  | returnSub
  | dim (arrays : List ArrayReference)
  | remark
  /-- The variable counts through the lines from 1. -/
  | onGoto (selector : Char) (lines : List LineNumber)
  | sequence (first rest : Statement)
  deriving DecidableEq, Repr

end LineBasic
