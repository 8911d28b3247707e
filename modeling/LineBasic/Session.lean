import LineBasic.Grammar.Statement
import LineBasic.Rule.Parse
import LineBasic.Tree.Node

/-
  LineBasic.Session — trying rules one by one on a span of a text, with the farthest miss kept between them.

  A step reads at an offset of its own, before the span, in it or beyond it; the steps share nothing but the frontier
  of misses. The characters up to the end of the span are seen, those after it are not. Beyond the span nothing is
  found, not even the empty symbol or the end of the line.
-/

namespace LineBasic

/-- The rules that can be asked for by name. -/
inductive RuleName where
  | integer
  | real
  | letter
  | quoted
  | expression
  | arrayReference
  | variableReference
  | stringExpression
  | stringBody
  | condition
  | statement
  deriving DecidableEq, Repr

/-- What a named rule finds. -/
inductive Value where
  | integer (number : Int)
  | real (number : Binary64)
  | text (characters : Text)
  | tree (root : Node)
  deriving DecidableEq, Repr

def RuleName.rule : RuleName → Rule Value
  | integer => do let n ← Rule.integer; pure (.integer n)
  | real => do let x ← Rule.real; pure (.real x)
  | letter => do let c ← Rule.letter; pure (.text [c])
  | quoted => do let text ← Rule.quoted; pure (.text text)
  | expression => do let e ← Grammar.expression; pure (.tree (.expression e))
  | arrayReference => do let a ← Grammar.arrayReference; pure (.tree (.expression a.expression))
  | variableReference => do let name ← Rule.letter; pure (.tree (.expression (.scalar name)))
  | stringExpression => do let s ← Grammar.stringExpression; pure (.tree (.string s))
  | stringBody => do let s ← Grammar.stringBody; pure (.tree (.string s))
  | condition => do let c ← Grammar.condition; pure (.tree (.condition c))
  | statement => do let s ← Grammar.statement; pure (.tree (.statement s))

/-- Reads the characters of a text from `start` to `stop` by a rule. -/
def RuleName.parse (name : RuleName) (text : Text) (start stop : Nat) : Except Failure Value :=
  name.rule.parseSpan start (text.slice start stop)

namespace Session

/-- A text and the part of it that the steps read. -/
structure Span where
  text : Text
  start : Nat
  stop : Nat
  deriving DecidableEq, Repr

/-- A rule by its name, or a literal text, whose value is the text itself. -/
inductive RuleRef where
  | named (name : RuleName)
  | symbol (spelling : String)
  deriving DecidableEq, Repr

inductive Step where
  | spaces (offset : Nat)
  | endOfLine (offset : Nat)
  | restOfLine (offset : Nat)
  | symbol (offset : Nat) (spelling : String)
  | fail (offset : Nat) (wanted : String)
  | rule (offset : Nat) (ref : RuleRef)
  | firstOf (offset : Nat) (refs : List RuleRef)
  | separated (offset : Nat) (ref : RuleRef) (separator : String)
  /-- The error of the farthest misses. -/
  | error
  /-- An error that would stop a parse. -/
  | fatal (offset : Nat) (description : String)
  deriving DecidableEq, Repr

/-- What a step found besides the offset after it. -/
inductive Found where
  | place
  | value (v : Value)
  | values (vs : List Value)
  deriving DecidableEq, Repr

inductive StepResult where
  | found (what : Found) (next : Nat)
  | nothing
  | made (error : ParseError)
  | raised (failure : Failure)
  deriving DecidableEq, Repr

variable (span : Span)

/-- The rule, for places up to the end of the span; what is wanted is missing beyond. -/
def within {α : Type} (wanted : Wanted) (rule : Rule α) : Rule α where
  run c := if c.offset ≤ span.stop then rule.run c else ⟨.missing, [⟨c.offset, wanted⟩]⟩

def symbolRule (spelling : String) : Rule Unit := within span (.symbol spelling) (Rule.literal spelling)

def RuleRef.rule : RuleRef → Rule Value
  | named name => name.rule
  | symbol spelling => do symbolRule span spelling; pure (.text spelling.toList)

/-- The offset of a step and its rule, if it reads the text. -/
def Step.reading : Step → Option (Nat × Rule Found)
  | spaces offset => some (offset, do Rule.spaces; pure .place)
  | endOfLine offset => some (offset, do within span .endOfLine Rule.endOfLine; pure .place)
  | restOfLine offset => some (offset, ⟨fun _ => ⟨.found .place ⟨span.stop, []⟩, []⟩⟩)
  | symbol offset spelling => some (offset, do symbolRule span spelling; pure .place)
  | fail offset wanted => some (offset, Rule.want offset (.other wanted))
  | rule offset ref => some (offset, do let v ← ref.rule span; pure (.value v))
  | firstOf offset refs => some (offset, do let v ← Rule.firstOf (refs.map (RuleRef.rule span)); pure (.value v))
  | separated offset ref separator =>
    some (offset, do let vs ← Rule.separated separator (ref.rule span); pure (.values vs))
  | error => none
  | fatal _ _ => none

/-- The reply of a step that reads the text. -/
def Step.reply (step : Step) : Option (Reply Found) :=
  (step.reading span).map fun r => r.2.run ⟨r.1, span.text.slice r.1 span.stop⟩

def StepResult.ofOutcome : Outcome Found → StepResult
  | .found what next => .found what next.offset
  | .missing => .nothing
  | .aborted cause => .raised (.ofAbort cause)

/-- The result of a step after the misses so far, and the misses with its own. -/
def Step.run (frontier : Frontier) (step : Step) : StepResult × Frontier :=
  match step.reply span with
  | some reply => (.ofOutcome reply.outcome, frontier.recordAll reply.misses)
  | none =>
    match step with
    | fatal offset description => (.made (.stop offset description), frontier)
    | _ => (.made frontier.error, frontier)

/-- The results of the steps in their order, each with the frontier after it. -/
def runFrom (frontier : Frontier) : List Step → List (StepResult × Frontier)
  | [] => []
  | step :: rest =>
    let outcome := step.run span frontier
    outcome :: runFrom outcome.2 rest

def run (steps : List Step) : List (StepResult × Frontier) := runFrom span (.start span.start) steps

end Session

end LineBasic
