import LineBasic.Proofs.Strings
import LineBasic.Proofs.WellFormed

/-
  LineBasic.Proofs.Rendering — a text for every well-formed tree, which is read as that tree.

  An expression is written as one atom: whatever has an operator stands in parentheses. Keywords are written out, with
  one space behind them, and every clause of a loop is given. Read again, each piece survives the alternatives that are
  tried before its own: none of them finds anything where the piece begins.
-/

namespace LineBasic

/-! ## Texts for trees -/

/-- A number in decimal digits. -/
def numeral (n : Int) : Text := Nat.toDigits 10 n.toNat

/-- Texts with commas between them. -/
def listed : List Text → Text
  | [] => []
  | [t] => t
  | t :: rest => t ++ [','] ++ listed rest

def Expression.render : Expression → Text
  | integer n => numeral n
  | real x => x.wholeDigits ++ ['.'] ++ x.fractionDigits
  | scalar c => [c]
  | array c i j k l => [c, '('] ++ listed [i.render, j.render, k.render, l.render] ++ [')']
  | binary op l r =>
    if op = .multiply ∧ l = .integer (-1) then ['-'] ++ r.render
    else ['('] ++ (l.render ++ [op.sign] ++ r.render) ++ [')']
  | call f e => f.spelling.toList ++ (['('] ++ e.render ++ [')'])

def StringExpression.render : StringExpression → Text
  | literal t => ['"'] ++ t ++ ['"']
  | number e => e.render
  | tab n => "TAB(".toList ++ numeral n ++ [')']
  | concat l r => l.render ++ [';'] ++ r.render
  | concatTab l r => l.render ++ [','] ++ r.render
  | suppressNewline b => b.render ++ [';']
  | trailingTab b => b.render ++ [',']

namespace Grammar

open Rule Spelling

/-! ## Expressions -/

theorem digits_toDigits (n : Nat) : Digits (Nat.toDigits 10 n) :=
  ⟨Nat.toDigits_ne_nil, fun _ hc => Nat.isDigit_of_mem_toDigits (by decide) (by decide) hc⟩

theorem digits_numeral (n : Int) : Digits (numeral n) := digits_toDigits n.toNat

theorem digits_whole (x : Binary64) : Digits x.wholeDigits := digits_toDigits _

theorem digits_fraction (x : Binary64) : Digits x.fractionDigits := by
  refine ⟨fun h => ?_, isDigit_lastDigits Binary64.decimals x.decimalUnits⟩
  have length : x.fractionDigits.length = Binary64.decimals := length_lastDigits _ _
  rw [h] at length
  cases length

theorem value_numeral {n : Int} (h : FitsLimit n) : (decimalValue (numeral n) : Int) = n := by
  obtain ⟨m, rfl, -⟩ := h
  rw [numeral, Int.toNat_natCast, decimalValue_toDigits]

theorem length_numeral {n : Int} (h : FitsLimit n) : (numeral n).length ≤ digitLimit := by
  obtain ⟨m, rfl, hm⟩ := h
  rw [numeral, Int.toNat_natCast]
  exact length_toDigits (by decide) hm

theorem chain_atom {fits : Text → Prop} {s : Text} {e : Expression} (h : Atom fits s e) : Chain fits s e := by
  have := Chain.chain h .none
  rwa [chainTree_nil, List.append_nil] at this

theorem chain_pair {fits : Text → Prop} {s t : Text} {l r : Expression} (op : BinaryOp) (hl : Atom fits s l)
    (hr : Atom fits t r) : Chain fits (s ++ [op.sign] ++ t) (.binary op l r) := by
  have tree : chainTree l ([] ++ (op, r) :: []) = .binary op (chainTree l []) (chainTree r []) :=
    chainTree_append (by simp) (by simp)
  rw [chainTree_nil, chainTree_nil] at tree
  have chain := Chain.chain hl (.more op spaces_nil spaces_nil hr .none)
  rw [← tree]
  simpa using chain

theorem element_render {c : Char} {i j k l : Expression} (hc : c.isAlpha = true) (hi : Atom withinLimit i.render i)
    (hj : Atom withinLimit j.render j) (hk : Atom withinLimit k.render k) (hl : Atom withinLimit l.render l) :
    Element withinLimit (Expression.array c i j k l).render ⟨c, i, j, k, l⟩ := by
  have indices : Indices withinLimit (listed [i.render, j.render, k.render, l.render]) [i, j, k, l] := by
    have := Indices.more (chain_atom hi) spaces_nil spaces_nil <| .more (chain_atom hj) spaces_nil spaces_nil <|
      .more (chain_atom hk) spaces_nil spaces_nil (.last (chain_atom hl))
    simpa [listed] using this
  have element := Element.indexed hc spaces_nil indices spaces_nil rfl
  simpa [Expression.render] using element

theorem render_atom {e : Expression} (h : e.WellFormed) : Atom withinLimit e.render e := by
  induction h with
  | @integer n hn =>
    have fits : withinLimit (numeral n) := length_numeral hn
    have := Atom.integer (digits_numeral n) fits
    rwa [value_numeral hn] at this
  | real x =>
    have number : Atom withinLimit (x.wholeDigits ++ ['.'] ++ x.fractionDigits) _ :=
      .real (digits_whole x) (digits_fraction x)
    rwa [x.ofDecimal_digits] at number
  | scalar hc => exact .scalar hc
  | array hc _ _ _ _ hi hj hk hl => exact .element (element_render hc hi hj hk hl)
  | negation _ ih => exact .negation spaces_nil ih
  | @binary op l r hl hr ihl ihr =>
    have positive : ¬ (op = .multiply ∧ l = .integer (-1)) := by
      rintro ⟨-, rfl⟩
      cases hl with
      | integer hn => exact not_fitsLimit_negative hn
    rw [Expression.render, if_neg positive]
    simpa using Atom.parenthesised spaces_nil (chain_pair op ihl ihr) spaces_nil
  | call f _ ih => simpa [Expression.render] using Atom.call f spaces_nil (chain_atom ih) spaces_nil

theorem render_element {a : ArrayReference} (h : a.WellFormed) : Element withinLimit a.expression.render a := by
  cases h with
  | array hc hi hj hk hl => exact element_render hc (render_atom hi) (render_atom hj) (render_atom hk) (render_atom hl)

theorem takes_render {e : Expression} (h : e.WellFormed) {k : Text} (hk : Free k) : Takes False expression e.render e k :=
  (takes_expression (chain_atom (render_atom h)) hk.1).mono fun hrisk => not_long_withinLimit (hrisk.long hk.2)

/-- An element of an array is read whatever is behind it. -/
theorem takes_element {a : ArrayReference} (h : a.WellFormed) (k : Text) :
    Takes False arrayReference a.expression.render a k :=
  (takes_arrayReference (render_element h)).mono not_long_withinLimit

theorem takes_numeral {n : Int} (h : FitsLimit n) {k : Text} (hk : Stops Char.isDigit k) :
    Takes False integer (numeral n) n k := by
  have := takes_integer (R := False) (digits_numeral n) hk fun hlong => absurd (length_numeral h) (Nat.not_le_of_lt hlong)
  rwa [value_numeral h] at this

theorem numeral_head (n : Int) (k : Text) : Stops isSpace (numeral n ++ k) := digits_head (digits_numeral n) k

/-! ## Strings -/

theorem render_part {f : StringExpression} (h : f.IsFragment) : Part withinLimit f.render f := by
  cases h with
  | literal ht => exact .literal ht
  | number he => exact .number (chain_atom (render_atom he))
  | @tab n hn =>
    have fits : withinLimit (numeral n) := length_numeral hn
    have := Part.tab spaces_nil (digits_numeral n) fits spaces_nil
    rw [value_numeral hn] at this
    simpa [StringExpression.render] using this

theorem render_parts {b : StringExpression} (h : b.IsBody) : Parts withinLimit b.render b := by
  induction h with
  | fragment hf => exact .part (render_part hf)
  | concat hf _ ih =>
    have := Parts.join .semicolon (render_part hf) spaces_nil ih
    simpa [StringExpression.render, Separator.sign, Separator.join] using this
  | concatTab hf _ ih =>
    have := Parts.join .comma (render_part hf) spaces_nil ih
    simpa [StringExpression.render, Separator.sign, Separator.join] using this

theorem render_dangling {s : StringExpression} (h : s.WellFormed) : ∃ u b d, Parts withinLimit u b ∧
    s.render = u ++ danglingText d ∧ s = danglingTree d b := by
  cases h with
  | body hb => exact ⟨_, _, none, render_parts hb, by simp [danglingText], rfl⟩
  | trailingTab hb => exact ⟨_, _, some .comma, render_parts hb, rfl, rfl⟩
  | suppressNewline hb => exact ⟨_, _, some .semicolon, render_parts hb, rfl, rfl⟩

/-- What is behind a rendered statement: nothing, or a colon and another one. -/
def Ending (k : Text) : Prop := k = [] ∨ ∃ t, k = ' ' :: ':' :: t

theorem Ending.closes {k : Text} (h : Ending k) : Closes k := by
  rcases h with rfl | ⟨t, rfl⟩
  · exact ⟨[], [], rfl, spaces_nil, .inl rfl⟩
  · exact ⟨[' '], ':' :: t, rfl, spaces_one, .inr ⟨t, rfl⟩⟩

theorem takes_stringExpression {s : StringExpression} (h : s.WellFormed) {k : Text} (hk : Closes k) :
    Takes False stringExpression s.render s k := by
  obtain ⟨u, b, d, hparts, hs, hb⟩ := render_dangling h
  rw [hs, hb]
  exact (takes_dangling hparts d hk).mono not_long_withinLimit

end Grammar

end LineBasic
