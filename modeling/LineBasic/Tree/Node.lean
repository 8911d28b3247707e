import LineBasic.Ascending
import LineBasic.Tree

/-
  LineBasic.Tree.Node — any place in a tree: its direct parts, everything under it, and the lines it may jump to.

  `nodes` keeps a list of the nodes that are still to be visited, the next one first. A visit puts the children in
  front of the others, so that parents come before their children and left parts before right ones.
-/

namespace LineBasic

/-- The root of a tree of any kind. -/
inductive Node where
  | expression (e : Expression)
  | string (s : StringExpression)
  | condition (c : Condition)
  | statement (s : Statement)
  deriving DecidableEq, Repr

namespace Node

/-- The direct parts of a node in the order in which it holds them. -/
def children : Node → List Node
  | expression (.array _ first second third fourth) =>
    [expression first, expression second, expression third, expression fourth]
  | expression (.binary _ left right) => [expression left, expression right]
  | expression (.call _ argument) => [expression argument]
  | expression _ => []
  | string (.number value) => [expression value]
  | string (.concat left right) => [string left, string right]
  | string (.concatTab left right) => [string left, string right]
  | string (.suppressNewline written) => [string written]
  | string (.trailingTab written) => [string written]
  | string _ => []
  | condition (.compare _ left right) => [expression left, expression right]
  | condition (.connect _ left right) => [condition left, condition right]
  | statement (.assign target value) => [expression target.expression, expression value]
  | statement (.print written) => [string written]
  | statement (.ifThen test _) => [condition test]
  | statement (.forLoop _ start stop step) => [expression start, expression stop, expression step]
  | statement (.dim arrays) => arrays.map fun a => expression a.expression
  | statement (.sequence first rest) => [statement first, statement rest]
  | statement _ => []

end Node

/-! ## How many nodes there are -/

def Expression.size : Expression → Nat
  | array _ first second third fourth => first.size + second.size + third.size + fourth.size + 1
  | binary _ left right => left.size + right.size + 1
  | call _ argument => argument.size + 1
  | _ => 1

def StringExpression.size : StringExpression → Nat
  | number value => value.size + 1
  | concat left right => left.size + right.size + 1
  | concatTab left right => left.size + right.size + 1
  | suppressNewline written => written.size + 1
  | trailingTab written => written.size + 1
  | _ => 1

def Condition.size : Condition → Nat
  | compare _ left right => left.size + right.size + 1
  | connect _ left right => left.size + right.size + 1

def Statement.size : Statement → Nat
  | assign target value => target.expression.size + value.size + 1
  | print written => written.size + 1
  | ifThen condition _ => condition.size + 1
  | forLoop _ start stop step => start.size + stop.size + step.size + 1
  | dim arrays => arrays.foldr (fun a n => a.expression.size + n) 0 + 1
  | sequence first rest => first.size + rest.size + 1
  | _ => 1

namespace Node

def size : Node → Nat
  | expression e => e.size
  | string s => s.size
  | condition c => c.size
  | statement s => s.size

/-- The number of nodes in several trees. -/
def totalSize (roots : List Node) : Nat := roots.foldr (fun n total => n.size + total) 0

theorem totalSize_cons (n : Node) (rest : List Node) : totalSize (n :: rest) = n.size + totalSize rest := rfl

theorem totalSize_append (a b : List Node) : totalSize (a ++ b) = totalSize a + totalSize b := by
  induction a with
  | nil => simp [totalSize]
  | cons n a ih =>
    rw [List.cons_append, totalSize_cons, totalSize_cons, ih]
    omega

/-- A node is one more than its children. -/
theorem totalSize_children (n : Node) : totalSize n.children + 1 = n.size := by
  match n with
  | expression e =>
    cases e <;> simp [children, totalSize, size, Expression.size]
    omega
  | string s => cases s <;> simp [children, totalSize, size, StringExpression.size]
  | condition c => cases c <;> simp [children, totalSize, size, Condition.size]
  | statement s =>
    cases s <;> simp [children, totalSize, size, Statement.size, List.foldr_map]
    omega

/-! ## Visiting -/

/-- Visits the pending nodes and everything under them. -/
def visit : List Node → List Node
  | [] => []
  | n :: pending => n :: visit (n.children ++ pending)
termination_by pending => totalSize pending
decreasing_by
  have := totalSize_children n
  rw [totalSize_append, totalSize_cons]
  omega

/-- The node and everything under it. -/
def nodes (n : Node) : List Node := visit [n]

/-! ## Jump targets -/

/-- The lines a node names itself. -/
def ownTargets : Node → List LineNumber
  | statement (.goto line) => [line]
  | statement (.gosub line) => [line]
  | statement (.ifThen _ line) => [line]
  | statement (.onGoto _ lines) => lines
  | _ => []

/-- The lines that a node or anything under it may jump to, ascending and without repeats. -/
def lineReferences (n : Node) : List LineNumber := ascending (n.nodes.flatMap ownTargets)

end Node

end LineBasic
