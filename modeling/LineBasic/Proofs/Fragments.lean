import LineBasic.Proofs.Recognition

/-
  LineBasic.Proofs.Fragments — a string expression is its fragments and the separators behind them.

  The fragments are joined to the right, so the tree is told by the fragments and the separators in their order.

  (1) No expression ends in a space (`chain_last`).
  (2) `Printed`: a whole text by its pieces. A number among them is a text that is read as an expression alone.
  (3) No text is cut into pieces in two ways (`printed_unique`), and a text has a tree if and only if it is cut into the
      pieces of this tree (`ofText_iff_printed`).
-/

namespace LineBasic

namespace Grammar

open Rule Spelling

variable {fits : Text → Prop}

/-! ## (1) The last character -/

theorem digits_last {w : Text} (h : Digits w) : ∃ t c, w = t ++ [c] ∧ c ≠ ' ' := by
  obtain ⟨t, c, rfl⟩ := (List.eq_nil_or_concat w).resolve_left h.1
  refine ⟨t, c, List.concat_eq_append, ?_⟩
  rintro rfl
  have := h.2 ' ' (by simp)
  simp at this

theorem letter_ne_space {c : Char} (h : c.isAlpha = true) : c ≠ ' ' := by
  rintro rfl
  simp at h

theorem atom_last {s : Text} {e : Expression} : Atom fits s e → ∃ t c, s = t ++ [c] ∧ c ≠ ' '
  | .parenthesised _ _ _ => ⟨_, ')', rfl, by decide⟩
  | .call f (a := a) (s := s) (b := b) _ _ _ => ⟨f.spelling.toList ++ (['('] ++ a ++ s ++ b), ')', by simp, by decide⟩
  | .negation (a := a) _ hs => by
    obtain ⟨t, c, rfl, hc⟩ := atom_last hs
    exact ⟨['-'] ++ a ++ t, c, by simp, hc⟩
  | .real (w := w) _ hf => by
    obtain ⟨t, c, rfl, hc⟩ := digits_last hf
    exact ⟨w ++ ['.'] ++ t, c, by simp, hc⟩
  | .integer hw _ => digits_last hw
  | .scalar hc => ⟨[], _, rfl, letter_ne_space hc⟩
  | .element h => by
    cases h with
    | indexed => exact ⟨_, ')', rfl, by decide⟩

theorem links_last {r : Text} {links : List Link} : Links fits r links → r = [] ∨ ∃ t c, r = t ++ [c] ∧ c ≠ ' '
  | .none => .inl rfl
  | .more op (a := a) (b := b) (s := s) _ _ hs hr => by
    rcases links_last hr with rfl | ⟨t, c, rfl, hc⟩
    · obtain ⟨t, c, rfl, hc⟩ := atom_last hs
      exact .inr ⟨a ++ [op.sign] ++ b ++ t, c, by simp, hc⟩
    · exact .inr ⟨a ++ [op.sign] ++ b ++ s ++ t, c, by simp, hc⟩

/-- No expression ends in a space. -/
theorem chain_last {s : Text} {e : Expression} (h : Chain fits s e) : s.getLast? ≠ some ' ' := by
  have last : ∃ t c, s = t ++ [c] ∧ c ≠ ' ' := by
    cases h with
    | @chain s x r links hs hr =>
      rcases links_last hr with rfl | ⟨t, c, rfl, hc⟩
      · simpa using atom_last hs
      · exact ⟨s ++ t, c, by simp, hc⟩
  obtain ⟨t, c, rfl, hc⟩ := last
  simpa using hc

end Grammar

/-! ## (2) Pieces -/

open Spelling Rule Grammar

/-- The text of one fragment with its tree. A number is a text that is read as an expression, without spaces at its
    end. -/
inductive Standalone : Text → StringExpression → Prop
  | literal {b} : '"' ∉ b → Standalone (['"'] ++ b ++ ['"']) (.literal b)
  | tab {a w b} : Spaces a → Digits w → Spaces b →
      Standalone ("TAB(".toList ++ a ++ w ++ b ++ [')']) (.tab (decimalValue w))
  | number {s e} : Expression.ofText s = .ok e → s.getLast? ≠ some ' ' → Standalone s (.number e)

structure Piece where
  text : Text
  tree : StringExpression
  standalone : Standalone text tree

/-- A separator, perhaps spaces, and the piece behind them. -/
structure Sequel where
  separator : Separator
  gap : Text
  piece : Piece
  spaces_gap : Spaces gap

/-- Pieces with separators, perhaps a separator behind the last one, and spaces at the end. -/
structure Printed where
  first : Piece
  sequels : List Sequel
  dangling : Option Separator
  pad : Text
  spaces_pad : Spaces pad

def Sequel.text (l : Sequel) : Text := [l.separator.sign] ++ l.gap ++ l.piece.text

/-- A piece is joined to everything behind it. -/
def Piece.fold : Piece → List Sequel → StringExpression
  | p, [] => p.tree
  | p, l :: sequels => l.separator.join p.tree (l.piece.fold sequels)

namespace Printed

def text (p : Printed) : Text := p.first.text ++ p.sequels.flatMap Sequel.text ++ danglingText p.dangling ++ p.pad

def tree (p : Printed) : StringExpression := danglingTree p.dangling (p.first.fold p.sequels)

end Printed

theorem spells_of_alone {s : Text} {e : Expression} (h : Expression.ofText s = .ok e) (hs : s.getLast? ≠ some ' ') :
    Chain withinLimit s e := by
  obtain ⟨u, pad, rfl, hpad, hu⟩ := sound_expression.parse h
  rcases List.eq_nil_or_concat pad with rfl | ⟨pad, x, rfl⟩
  · rwa [List.append_nil]
  · obtain rfl : x = ' ' := hpad x (by simp)
    simp at hs

theorem alone_of_spells {s : Text} {e : Expression} (h : Chain withinLimit s e) : Expression.ofText s = .ok e := by
  have := (takes_expression h (spaces_ends spaces_nil)).parse spaces_nil fun hrisk =>
    not_long_withinLimit (hrisk.long (stops_nil _))
  rwa [List.append_nil] at this

theorem Standalone.part {s : Text} {f : StringExpression} (h : Standalone s f) : Part (fun _ => True) s f := by
  cases h with
  | literal hb => exact .literal hb
  | tab ha hw hb => exact .tab ha hw trivial hb
  | number he hs => exact .number ((spells_of_alone he hs).mono fun _ _ _ _ => trivial)

theorem Spelling.Part.standalone {s : Text} {f : StringExpression} (h : Part withinLimit s f) : Standalone s f := by
  cases h with
  | literal hb => exact .literal hb
  | tab ha hw _ hb => exact .tab ha hw hb
  | number he => exact .number (alone_of_spells he) (chain_last he)

theorem Piece.parts (p : Piece) (sequels : List Sequel) :
    Parts (fun _ => True) (p.text ++ sequels.flatMap Sequel.text) (p.fold sequels) := by
  induction sequels generalizing p with
  | nil => simpa [Piece.fold] using Parts.part p.standalone.part
  | cons l sequels ih =>
    have := Parts.join l.separator p.standalone.part l.spaces_gap (ih l.piece)
    simpa [Piece.fold, Sequel.text] using this

theorem Spelling.Parts.pieces {s : Text} {b : StringExpression} (h : Parts withinLimit s b) :
    ∃ (p : Piece) (sequels : List Sequel), s = p.text ++ sequels.flatMap Sequel.text ∧ b = p.fold sequels := by
  induction h with
  | @part s f hf => exact ⟨⟨s, f, hf.standalone⟩, [], by simp, rfl⟩
  | @join s f a r b separator hf ha _ ih =>
    obtain ⟨p, sequels, rfl, rfl⟩ := ih
    exact ⟨⟨s, f, hf.standalone⟩, ⟨separator, a, p, ha⟩ :: sequels, by simp [Sequel.text], rfl⟩

/-! ## (3) Texts and their pieces -/

theorem tab_inj {a w b a' w' b' k k' : Text} (ha : Spaces a) (hw : Digits w) (hb : Spaces b) (ha' : Spaces a')
    (hw' : Digits w') (hb' : Spaces b')
    (h : "TAB(".toList ++ a ++ w ++ b ++ [')'] ++ k = "TAB(".toList ++ a' ++ w' ++ b' ++ [')'] ++ k') :
    a = a' ∧ w = w' ∧ b = b' ∧ k = k' := by
  have opened : a ++ (w ++ (b ++ ')' :: k)) = a' ++ (w' ++ (b' ++ ')' :: k')) := by simpa using h
  obtain ⟨hsa, number⟩ := run_inj ha.isSpace ha'.isSpace (digits_head hw _) (digits_head hw' _) opened
  have noDigit {b k : Text} (hb : Spaces b) : Stops Char.isDigit (b ++ ')' :: k) :=
    stops_spaces hb (by decide) (by decide)
  obtain ⟨hsw, closed⟩ := run_inj hw.2 hw'.2 (noDigit hb) (noDigit hb') number
  obtain ⟨hsb, rest⟩ := run_inj hb.isSpace hb'.isSpace (by simp [isSpace]) (by simp [isSpace]) closed
  exact ⟨hsa, hsw, hsb, (List.cons.inj rest).2⟩

/-- A piece that cannot abort, or a column. -/
theorem Standalone.takes {s k : Text} {f : StringExpression} (h : Standalone s f) (hk : Free k) :
    Takes False fragment s f k ∨ ∃ a w b, Spaces a ∧ Digits w ∧ Spaces b ∧
      s = "TAB(".toList ++ a ++ w ++ b ++ [')'] ∧ f = .tab (decimalValue w) := by
  cases h with
  | literal hb =>
    have part : Part withinLimit _ _ := .literal hb
    exact .inl ((takes_part part hk).mono not_long_withinLimit)
  | tab ha hw hb => exact .inr ⟨_, _, _, ha, hw, hb, rfl, rfl⟩
  | number he hs =>
    have part : Part withinLimit _ _ := .number (spells_of_alone he hs)
    exact .inl ((takes_part part hk).mono not_long_withinLimit)

theorem piece_unique {p q : Piece} {k k' : Text} (hk : Free k) (hk' : Free k') (h : p.text ++ k = q.text ++ k') :
    p = q ∧ k = k' := by
  suffices same : p.text = q.text ∧ p.tree = q.tree ∧ k = k' by
    obtain ⟨ht, hv, hr⟩ := same
    cases p
    cases q
    cases ht
    cases hv
    exact ⟨rfl, hr⟩
  have any (p : Piece) {k : Text} (hk : Free k) : Takes (Long fun _ => True) fragment p.text p.tree k :=
    takes_part p.standalone.part hk
  rcases p.standalone.takes hk with hp | ⟨a, w, b, ha, hw, hb, hp, hpt⟩
  · exact hp.agree (any q hk') h
  rcases q.standalone.takes hk' with hq | ⟨a', w', b', ha', hw', hb', hq, hqt⟩
  · obtain ⟨ht, hv, hr⟩ := hq.agree (any p hk) h.symm
    exact ⟨ht.symm, hv.symm, hr.symm⟩
  · rw [hp, hq] at h
    obtain ⟨rfl, rfl, rfl, rfl⟩ := tab_inj ha hw hb ha' hw' hb' h
    exact ⟨hp.trans hq.symm, hpt.trans hqt.symm, rfl⟩

theorem piece_head (p : Piece) (k : Text) : Stops isSpace (p.text ++ k) := part_head p.standalone.part k

/-- What is behind the first piece. -/
def behindPiece (sequels : List Sequel) (d : Option Separator) (pad : Text) : Text :=
  sequels.flatMap Sequel.text ++ danglingText d ++ pad

theorem behindPiece_cons (l : Sequel) (sequels : List Sequel) (d : Option Separator) (pad : Text) :
    behindPiece (l :: sequels) d pad = l.separator.sign :: (l.gap ++ (l.piece.text ++ behindPiece sequels d pad)) := by
  simp [behindPiece, Sequel.text]

theorem free_behindPiece (sequels : List Sequel) (d : Option Separator) {pad : Text} (hp : Spaces pad) :
    Free (behindPiece sequels d pad) := by
  cases sequels with
  | nil =>
    cases d with
    | none => exact Closes.free ⟨pad, [], by simp [behindPiece, danglingText], hp, .inl rfl⟩
    | some separator => exact Separator.free separator pad
  | cons l sequels =>
    rw [behindPiece_cons]
    exact Separator.free _ _

theorem sign_inj {l r : Separator} (h : l.sign = r.sign) : l = r := by
  cases l <;> cases r <;> first | rfl | simp [Separator.sign] at h

theorem sign_ne_space (l : Separator) : l.sign ≠ ' ' := by cases l <;> decide

/-- Spaces at the end are no separator. -/
theorem pad_ne_sign {pad t : Text} (hp : Spaces pad) (l : Separator) : pad ≠ l.sign :: t := by
  rintro rfl
  exact sign_ne_space l (hp _ (by simp))

/-- A dangling separator is no separator before a piece. -/
theorem dangling_ne_sequel {d : Option Separator} {pad t : Text} (hp : Spaces pad) (l : Sequel) :
    danglingText d ++ pad ≠ l.separator.sign :: (l.gap ++ (l.piece.text ++ t)) := by
  cases d with
  | none => exact pad_ne_sign hp l.separator
  | some separator =>
    intro h
    have rest : pad = l.gap ++ (l.piece.text ++ t) := (List.cons.inj h).2
    obtain ⟨c, u, hu, hc⟩ := part_begins l.piece.standalone.part
    have : c = ' ' := hp c (by simp [rest, hu])
    simp [this, isSpace] at hc

theorem dangling_inj {d e : Option Separator} {a b : Text} (ha : Spaces a) (hb : Spaces b)
    (h : danglingText d ++ a = danglingText e ++ b) : d = e ∧ a = b := by
  cases d with
  | none =>
    cases e with
    | none => exact ⟨rfl, h⟩
    | some separator => exact absurd h (pad_ne_sign ha separator)
  | some separator =>
    cases e with
    | none => exact absurd h.symm (pad_ne_sign hb separator)
    | some separator' =>
      obtain ⟨hs, hr⟩ := List.cons.inj h
      exact ⟨congrArg some (sign_inj hs), hr⟩

/-- The pieces of a text follow from the text, one after the other. -/
theorem pieces_unique {p q : Piece} {js ls : List Sequel} {d e : Option Separator} {a b : Text} (ha : Spaces a)
    (hb : Spaces b) (h : p.text ++ behindPiece js d a = q.text ++ behindPiece ls e b) :
    p = q ∧ js = ls ∧ d = e ∧ a = b := by
  induction js generalizing p q ls with
  | nil =>
    obtain ⟨rfl, behind⟩ := piece_unique (free_behindPiece [] d ha) (free_behindPiece ls e hb) h
    cases ls with
    | nil =>
      obtain ⟨rfl, rfl⟩ := dangling_inj ha hb behind
      exact ⟨rfl, rfl, rfl, rfl⟩
    | cons l ls =>
      rw [behindPiece_cons] at behind
      exact absurd behind (dangling_ne_sequel ha l)
  | cons j js ih =>
    obtain ⟨rfl, behind⟩ := piece_unique (free_behindPiece (j :: js) d ha) (free_behindPiece ls e hb) h
    rw [behindPiece_cons] at behind
    cases ls with
    | nil => exact absurd behind.symm (dangling_ne_sequel hb j)
    | cons l ls =>
      rw [behindPiece_cons] at behind
      obtain ⟨hsign, hrest⟩ := List.cons.inj behind
      obtain ⟨hgap, hnext⟩ := run_inj j.spaces_gap.isSpace l.spaces_gap.isSpace (piece_head _ _) (piece_head _ _) hrest
      obtain ⟨hpiece, rfl, rfl, rfl⟩ := ih hnext
      have hsequel : j = l := by
        cases j
        cases l
        cases sign_inj hsign
        cases hgap
        cases hpiece
        rfl
      exact ⟨rfl, by rw [hsequel], rfl, rfl⟩

theorem printed_unique {p q : Printed} (h : p.text = q.text) : p = q := by
  obtain ⟨first, sequels, dangling, pad, hpad⟩ := p
  obtain ⟨first', sequels', dangling', pad', hpad'⟩ := q
  have pieces : first.text ++ behindPiece sequels dangling pad = first'.text ++ behindPiece sequels' dangling' pad' := by
    simpa [Printed.text, behindPiece] using h
  obtain ⟨rfl, rfl, rfl, rfl⟩ := pieces_unique hpad hpad' pieces
  rfl

/-- Whatever is read as a string expression is cut into the pieces of its tree. -/
theorem printed_of_ofText {t : Text} {w : StringExpression} (h : StringExpression.ofText t = .ok w) :
    ∃ p : Printed, p.text = t ∧ p.tree = w := by
  obtain ⟨s, pad, rfl, hpad, u, b, d, hparts, rfl, rfl⟩ := sound_dangling.parse h
  obtain ⟨p, sequels, rfl, rfl⟩ := hparts.pieces
  exact ⟨⟨p, sequels, d, pad, hpad⟩, rfl, rfl⟩

/-- Pieces are read as their tree, or something aborts. -/
theorem Printed.takes (p : Printed) :
    Takes (Long fun _ => True) stringExpression.whole p.text p.tree [] := by
  have all := takes_dangling (p.first.parts p.sequels) p.dangling (k := p.pad) ⟨p.pad, [], by simp, p.spaces_pad, .inl rfl⟩
  refine .bind (by simpa using all) ?_
  exact (takes_spaces p.spaces_pad (stops_nil _)).bind_nil (takes_endOfLine.bind_nil takes_pure)

/-- Where nothing aborts, a text has a tree if and only if it is cut into the pieces of this tree. It is cut in one way
    only. -/
theorem ofText_iff_printed {t : Text} (hf : ∀ e, StringExpression.ofText t = .error (.badText e) → e.fatal = false)
    (hd : ∀ count, StringExpression.ofText t ≠ .error (.tooManyDigits (some count))) :
    (∀ w, StringExpression.ofText t = .ok w ↔ ∃ p : Printed, p.text = t ∧ p.tree = w) ∧
    (∀ p q : Printed, p.text = t → q.text = t → p = q) := by
  refine ⟨fun w => ⟨printed_of_ofText, ?_⟩, fun p q hp hq => printed_unique (hp.trans hq.symm)⟩
  rintro ⟨p, rfl, rfl⟩
  rcases p.takes 0 with found | ⟨-, cause, aborted⟩
  · rw [List.append_nil] at found
    exact parse_eq_ok.mpr ⟨_, found⟩
  · rw [List.append_nil] at aborted
    have failed : StringExpression.ofText p.text = .error (.ofAbort cause) := by
      show stringExpression.parseSpan 0 p.text = _
      simp only [parseSpan, aborted]
    cases cause with
    | unknownFunction offset name => cases hf _ failed
    | tooManyDigits count => exact absurd failed (hd count)

/-- A separator in a literal, commas in an array, spaces behind a separator, and one that dangles. -/
theorem ofText_mixed_pieces :
    (∀ e, StringExpression.ofText "\"A;B\";TAB( 3 ),  X(1,2); ".toList = .error (.badText e) → e.fatal = false) ∧
      (∀ count, StringExpression.ofText "\"A;B\";TAB( 3 ),  X(1,2); ".toList ≠ .error (.tooManyDigits (some count))) ∧
      ∃ p : Printed, p.text = "\"A;B\";TAB( 3 ),  X(1,2); ".toList ∧ p.tree = .suppressNewline
        (.concat (.literal "A;B".toList)
          (.concatTab (.tab 3) (.number (.array 'X' (.integer 1) (.integer 2) (.integer 0) (.integer 0))))) := by
  have tree : StringExpression.ofText "\"A;B\";TAB( 3 ),  X(1,2); ".toList = .ok (.suppressNewline
      (.concat (.literal "A;B".toList)
        (.concatTab (.tab 3) (.number (.array 'X' (.integer 1) (.integer 2) (.integer 0) (.integer 0)))))) := by rfl
  have noText : ∀ e, StringExpression.ofText "\"A;B\";TAB( 3 ),  X(1,2); ".toList = .error (.badText e) →
      e.fatal = false := by
    intro e he
    cases tree.symm.trans he
  have noDigits : ∀ count, StringExpression.ofText "\"A;B\";TAB( 3 ),  X(1,2); ".toList ≠ .error (.tooManyDigits (some count)) := by
    intro count he
    cases tree.symm.trans he
  exact ⟨noText, noDigits, ((ofText_iff_printed noText noDigits).1 _).mp tree⟩

end LineBasic
