import LineBasic.Proofs.Lexemes
import LineBasic.Tree.Outline

/-
  LineBasic.Proofs.Spelling — which texts spell which arithmetic expressions, said without a parser.

  An expression is a chain of atoms with operators between them. Its tree is found by splitting the chain at its loosest
  operator (`chainTree`): at its first `-` if it has one, otherwise at its first `+`, then `/`, then `*`, and by building
  both sides in the same way. An atom is a number, a name, an element of an array, a call of a built-in function, an
  expression in parentheses, or a minus sign and an atom. Spaces may stand around operators, after a minus sign and
  inside parentheses.

  `fits` says which runs of digits may stand as an integer.
-/

namespace LineBasic

/-! ## Chains -/

def BinaryOp.sign : BinaryOp → Char
  | add => '+'
  | subtract => '-'
  | multiply => '*'
  | divide => '/'

/-- An operator and the operand behind it. -/
abbrev Link := BinaryOp × Expression

/-- The links before the first `op`, the operand of that `op`, and the links after it. -/
def splitAtFirst (op : BinaryOp) : List Link → Option (List Link × Expression × List Link)
  | [] => none
  | (o, y) :: rest =>
    if o = op then some ([], y, rest)
    else (splitAtFirst op rest).map fun (before, z, after) => ((o, y) :: before, z, after)

/-- The operators, the loosest first. -/
def loosestFirst : List BinaryOp := [.subtract, .add, .divide, .multiply]

/-- The loosest operator of a chain, with the parts of the chain around its first place. -/
def loosestSplit (links : List Link) : Option (BinaryOp × List Link × Expression × List Link) :=
  loosestFirst.findSome? fun op => (splitAtFirst op links).map fun parts => (op, parts)

theorem splitAtFirst_some {op : BinaryOp} {links before after : List Link} {y : Expression}
    (h : splitAtFirst op links = some (before, y, after)) :
    links = before ++ (op, y) :: after ∧ ∀ l ∈ before, l.1 ≠ op := by
  induction links generalizing before with
  | nil => cases h
  | cons l rest ih =>
    simp only [splitAtFirst] at h
    split at h
    · rename_i ho
      cases h
      simp [← ho]
    · rename_i ho
      obtain ⟨⟨b, z, a⟩, hr, he⟩ := Option.map_eq_some_iff.mp h
      cases he
      obtain ⟨rfl, hb⟩ := ih hr
      exact ⟨rfl, by simpa using ⟨ho, by simpa using hb⟩⟩

theorem splitAtFirst_eq_none {op : BinaryOp} {links : List Link} (h : splitAtFirst op links = none) :
    ∀ l ∈ links, l.1 ≠ op := by
  induction links with
  | nil => simp
  | cons l rest ih =>
    simp only [splitAtFirst] at h
    split at h
    · cases h
    · rename_i ho
      have := ih (Option.map_eq_none_iff.mp h)
      simpa using ⟨ho, by simpa using this⟩

theorem splitAtFirst_append {op : BinaryOp} {before after : List Link} {y : Expression}
    (h : ∀ l ∈ before, l.1 ≠ op) : splitAtFirst op (before ++ (op, y) :: after) = some (before, y, after) := by
  induction before with
  | nil => simp [splitAtFirst]
  | cons l before ih =>
    rw [List.cons_append, splitAtFirst, if_neg (h l (by simp)), ih fun m hm => h m (by simp [hm])]
    rfl

theorem splitAtFirst_none {op : BinaryOp} {links : List Link} (h : ∀ l ∈ links, l.1 ≠ op) :
    splitAtFirst op links = none := by
  induction links with
  | nil => rfl
  | cons l links ih => rw [splitAtFirst, if_neg (h l (by simp)), ih fun m hm => h m (by simp [hm])]; rfl

theorem loosestSplit_some {links before after : List Link} {op : BinaryOp} {y : Expression}
    (h : loosestSplit links = some (op, before, y, after)) : links = before ++ (op, y) :: after := by
  obtain ⟨o, -, ho⟩ := List.exists_of_findSome?_eq_some h
  obtain ⟨parts, hp, he⟩ := Option.map_eq_some_iff.mp ho
  cases he
  exact (splitAtFirst_some hp).1

/-- The tree of a chain that begins with `x`. -/
def chainTree (x : Expression) (links : List Link) : Expression :=
  match _h : loosestSplit links with
  | some (op, before, y, after) => .binary op (chainTree x before) (chainTree y after)
  | none => x
termination_by links.length
decreasing_by
  · rw [loosestSplit_some _h, List.length_append, List.length_cons]
    omega
  · rw [loosestSplit_some _h, List.length_append, List.length_cons]
    omega

/-- How loosely an operator binds. -/
def BinaryOp.looseness : BinaryOp → Nat
  | multiply => 0
  | divide => 1
  | add => 2
  | subtract => 3

theorem loosestSplit_append {op : BinaryOp} {before after : List Link} {y : Expression}
    (hb : ∀ l ∈ before, l.1.looseness < op.looseness) (ha : ∀ l ∈ after, l.1.looseness ≤ op.looseness) :
    loosestSplit (before ++ (op, y) :: after) = some (op, before, y, after) := by
  have hop : splitAtFirst op (before ++ (op, y) :: after) = some (before, y, after) :=
    splitAtFirst_append fun l hl he => by have := hb l hl; rw [he] at this; omega
  have looser : ∀ o : BinaryOp, op.looseness < o.looseness → splitAtFirst o (before ++ (op, y) :: after) = none := by
    intro o ho
    refine splitAtFirst_none fun l hl he => ?_
    subst he
    rcases List.mem_append.mp hl with hl | hl
    · have := hb l hl; omega
    · rcases List.mem_cons.mp hl with rfl | hl
      · simp at ho
      · have := ha l hl; omega
  cases op with
  | subtract => simp [loosestSplit, loosestFirst, hop]
  | add =>
    have h1 := looser .subtract (by decide)
    simp [loosestSplit, loosestFirst, hop, h1]
  | divide =>
    have h1 := looser .subtract (by decide)
    have h2 := looser .add (by decide)
    simp [loosestSplit, loosestFirst, hop, h1, h2]
  | multiply =>
    have h1 := looser .subtract (by decide)
    have h2 := looser .add (by decide)
    have h3 := looser .divide (by decide)
    simp [loosestSplit, loosestFirst, hop, h1, h2, h3]

theorem chainTree_some {x y : Expression} {links before after : List Link} {op : BinaryOp}
    (h : loosestSplit links = some (op, before, y, after)) :
    chainTree x links = .binary op (chainTree x before) (chainTree y after) := by
  rw [chainTree]
  split
  · rename_i h'
    rw [h] at h'
    cases h'
    rfl
  · rename_i h'
    rw [h] at h'
    cases h'

theorem chainTree_none {x : Expression} {links : List Link} (h : loosestSplit links = none) : chainTree x links = x := by
  rw [chainTree]
  split
  · rename_i h'
    rw [h] at h'
    cases h'
  · rfl

theorem chainTree_nil (x : Expression) : chainTree x [] = x := chainTree_none rfl

/-- A chain splits where an operator is looser than those before it and no tighter than those after it. -/
theorem chainTree_append {x y : Expression} {op : BinaryOp} {before after : List Link}
    (hb : ∀ l ∈ before, l.1.looseness < op.looseness) (ha : ∀ l ∈ after, l.1.looseness ≤ op.looseness) :
    chainTree x (before ++ (op, y) :: after) = .binary op (chainTree x before) (chainTree y after) :=
  chainTree_some (loosestSplit_append hb ha)

/-! ## Texts -/

namespace Spelling

mutual

inductive Atom (fits : Text → Prop) : Text → Expression → Prop
  | parenthesised {a s b e} : Spaces a → Chain fits s e → Spaces b → Atom fits (['('] ++ a ++ s ++ b ++ [')']) e
  | call {a s b e} (f : BuiltIn) : Spaces a → Chain fits s e → Spaces b →
      Atom fits (f.spelling.toList ++ (['('] ++ a ++ s ++ b ++ [')'])) (.call f e)
  | negation {a s e} : Spaces a → Atom fits s e → Atom fits (['-'] ++ a ++ s) (.binary .multiply (.integer (-1)) e)
  | real {w f} : Digits w → Digits f → Atom fits (w ++ ['.'] ++ f) (.real (.ofDecimal w f))
  | integer {w} : Digits w → fits w → Atom fits w (.integer (decimalValue w))
  | scalar {c : Char} : c.isAlpha = true → Atom fits [c] (.scalar c)
  | element {s r} : Element fits s r → Atom fits s r.expression

/-- A letter with indices. There are four: those that are missing are 0, and those after the fourth do not count. -/
inductive Element (fits : Text → Prop) : Text → ArrayReference → Prop
  | indexed {c : Char} {a s b es i j k l} : c.isAlpha = true → Spaces a → Indices fits s es → Spaces b →
      (es ++ List.replicate 4 (Expression.integer 0)).take 4 = [i, j, k, l] →
      Element fits ([c, '('] ++ a ++ s ++ b ++ [')']) ⟨c, i, j, k, l⟩

inductive Indices (fits : Text → Prop) : Text → List Expression → Prop
  | none : Indices fits [] []
  | last {s e} : Chain fits s e → Indices fits s [e]
  | more {s e a b r e' es} : Chain fits s e → Spaces a → Spaces b → Indices fits r (e' :: es) →
      Indices fits (s ++ a ++ [','] ++ b ++ r) (e :: e' :: es)

inductive Links (fits : Text → Prop) : Text → List Link → Prop
  | none : Links fits [] []
  | more {a b s y r links} (op : BinaryOp) : Spaces a → Spaces b → Atom fits s y → Links fits r links →
      Links fits (a ++ [op.sign] ++ b ++ s ++ r) ((op, y) :: links)

/-- The text of an expression. -/
inductive Chain (fits : Text → Prop) : Text → Expression → Prop
  | chain {s x r links} : Atom fits s x → Links fits r links → Chain fits (s ++ r) (chainTree x links)

end

/-! ### Other limits -/

variable {fits fits' : Text → Prop}

mutual

theorem Atom.mono {s : Text} {e : Expression} :
    Atom fits s e → (∀ w, w <:+: s → Digits w → fits w → fits' w) → Atom fits' s e
  | .parenthesised (a := a) (b := b) ha hs hb, h =>
    .parenthesised ha (hs.mono fun w hw => h w (hw.trans ⟨['('] ++ a, b ++ [')'], by simp⟩)) hb
  | .call (a := a) (b := b) f ha hs hb, h =>
    .call f ha (hs.mono fun w hw => h w (hw.trans ⟨f.spelling.toList ++ (['('] ++ a), b ++ [')'], by simp⟩)) hb
  | .negation (a := a) ha hs, h => .negation ha (hs.mono fun w hw => h w (hw.trans ⟨['-'] ++ a, [], by simp⟩))
  | .real hw hf, _ => .real hw hf
  | .integer hw hfit, h => .integer hw (h _ (List.infix_refl _) hw hfit)
  | .scalar hc, _ => .scalar hc
  | .element hs, h => .element (hs.mono h)

theorem Element.mono {s : Text} {r : ArrayReference} :
    Element fits s r → (∀ w, w <:+: s → Digits w → fits w → fits' w) → Element fits' s r
  | .indexed (c := c) (a := a) (b := b) hc ha hs hb hi, h =>
    .indexed hc ha (hs.mono fun w hw => h w (hw.trans ⟨[c, '('] ++ a, b ++ [')'], by simp⟩)) hb hi

theorem Indices.mono {s : Text} {es : List Expression} :
    Indices fits s es → (∀ w, w <:+: s → Digits w → fits w → fits' w) → Indices fits' s es
  | .none, _ => .none
  | .last hs, h => .last (hs.mono h)
  | .more (s := s) (a := a) (b := b) (r := r) hs ha hb hr, h =>
    .more (hs.mono fun w hw => h w (hw.trans ⟨[], a ++ [','] ++ b ++ r, by simp⟩)) ha hb
      (hr.mono fun w hw => h w (hw.trans ⟨s ++ a ++ [','] ++ b, [], by simp⟩))

theorem Links.mono {r : Text} {links : List Link} :
    Links fits r links → (∀ w, w <:+: r → Digits w → fits w → fits' w) → Links fits' r links
  | .none, _ => .none
  | .more (a := a) (b := b) (s := s) (r := r) op ha hb hs hr, h =>
    .more op ha hb (hs.mono fun w hw => h w (hw.trans ⟨a ++ [op.sign] ++ b, r, by simp⟩))
      (hr.mono fun w hw => h w (hw.trans ⟨a ++ [op.sign] ++ b ++ s, [], by simp⟩))

/-- Only the runs of digits in the text itself have to fit. -/
theorem Chain.mono {s : Text} {e : Expression} :
    Chain fits s e → (∀ w, w <:+: s → Digits w → fits w → fits' w) → Chain fits' s e
  | .chain (s := s) (r := r) hs hr, h =>
    .chain (hs.mono fun w hw => h w (hw.trans ⟨[], r, by simp⟩)) (hr.mono fun w hw => h w (hw.trans ⟨s, [], by simp⟩))

end

/-- All of the text but spaces at its end is the text of the expression, with integers of any length. -/
def Spells (t : Text) (e : Expression) : Prop := ∃ s pad, t = s ++ pad ∧ Chain (fun _ => True) s e ∧ Spaces pad

end Spelling

end LineBasic
