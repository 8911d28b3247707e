import LineBasic.Rule.Wanted

/-
  LineBasic.Rule.Basic — rules: what they read, what they reply, and how they are put together.

  A rule looks at a cursor and finds a value and the cursor after it, or misses something, or aborts the whole parse.
  Nothing is consumed in place, so an alternative that fails leaves nothing to undo: the next one starts at the same
  cursor. Choice is ordered and committed: once an alternative has found something, the later ones are not tried, even
  if what follows fails. Every reply carries the misses made on the way to it, also when a value was found in the end.
-/

namespace LineBasic

/-- A place in a span: its offset in the whole text, and the characters from there to the end of the span. -/
structure Cursor where
  offset : Nat
  rest : Text
  deriving DecidableEq, Repr

/-- The cursor after the next `n` characters. -/
def Cursor.advance (c : Cursor) (n : Nat) : Cursor := ⟨c.offset + n, c.rest.drop n⟩

/-- The end of the span. -/
def Cursor.finish (c : Cursor) : Cursor := c.advance c.rest.length

/-- From `c` the characters `read` lead to `d`. -/
def Cursor.Reads (c : Cursor) (read : Text) (d : Cursor) : Prop :=
  c.rest = read ++ d.rest ∧ d.offset = c.offset + read.length

/-- Why a parse stops although alternatives remain. -/
inductive Abort where
  /-- At this offset a function is called that does not exist. -/
  | unknownFunction (offset : Nat) (name : Text)
  /-- A number that has to be an integer has this many digits. -/
  | tooManyDigits (count : Nat)
  deriving DecidableEq, Repr

inductive Outcome (α : Type) where
  | found (value : α) (next : Cursor)
  | missing
  | aborted (cause : Abort)
  deriving DecidableEq, Repr

structure Reply (α : Type) where
  outcome : Outcome α
  misses : List Miss
  deriving DecidableEq, Repr

namespace Reply

variable {α β : Type}

/-- The same reply with earlier misses before its own. -/
def after (earlier : List Miss) (r : Reply α) : Reply α := ⟨r.outcome, earlier ++ r.misses⟩

/-- Goes on from what was found. -/
def andThen (r : Reply α) (next : α → Cursor → Reply β) : Reply β :=
  match r.outcome with
  | .found value c => (next value c).after r.misses
  | .missing => ⟨.missing, r.misses⟩
  | .aborted cause => ⟨.aborted cause, r.misses⟩

/-- Goes on elsewhere if nothing was found. -/
def orTry (r : Reply α) (other : Unit → Reply α) : Reply α :=
  match r.outcome with
  | .missing => (other ()).after r.misses
  | _ => r

end Reply

structure Rule (α : Type) where
  run : Cursor → Reply α

namespace Rule

variable {α β : Type}

/-- Finds `value` without reading anything. -/
def succeed (value : α) : Rule α := ⟨fun c => ⟨.found value c, []⟩⟩

/-- Misses without wanting anything. -/
def fail : Rule α := ⟨fun _ => ⟨.missing, []⟩⟩

def andThen (p : Rule α) (q : α → Rule β) : Rule β := ⟨fun c => (p.run c).andThen fun value => (q value).run⟩

def orTry (p : Rule α) (q : Unit → Rule α) : Rule α := ⟨fun c => (p.run c).orTry fun _ => (q ()).run c⟩

instance : Monad Rule where
  pure := succeed
  bind := andThen

instance : OrElse (Rule α) := ⟨orTry⟩

/-- The first of the alternatives that finds something. -/
def firstOf (alternatives : List (Rule α)) : Rule α := alternatives.foldr (fun p rest => p <|> rest) fail

/-- The cursor itself. -/
def here : Rule Cursor := ⟨fun c => ⟨.found c c, []⟩⟩

/-- Misses what is wanted at `offset`. -/
def want (offset : Nat) (wanted : Wanted) : Rule α := ⟨fun _ => ⟨.missing, [⟨offset, wanted⟩]⟩⟩

def abort (cause : Abort) : Rule α := ⟨fun _ => ⟨.aborted cause, []⟩⟩

/-- Whether `p` finds something. If it does not, nothing is read. -/
def succeeds (p : Rule Unit) : Rule Bool := (do p; pure true) <|> pure false

/-! ## Running what is put together -/

@[simp] theorem run_pure (value : α) (c : Cursor) : (pure value : Rule α).run c = ⟨.found value c, []⟩ := rfl

@[simp] theorem run_bind (p : Rule α) (q : α → Rule β) (c : Cursor) :
    (p >>= q).run c = (p.run c).andThen fun value => (q value).run := rfl

@[simp] theorem run_orElse (p q : Rule α) (c : Cursor) : (p <|> q).run c = (p.run c).orTry fun _ => q.run c := rfl

end Rule

end LineBasic
