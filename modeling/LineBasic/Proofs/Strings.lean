import LineBasic.Proofs.Arithmetic

/-
  LineBasic.Proofs.Strings — a string expression is read as its fragments and the separators behind them.

  (1) What may stand behind an expression, a string expression and a statement.
  (2) `Parts`: fragments with a separator between any two. A separator stands right behind its fragment, and spaces may
      stand behind it. One more separator may stand behind the last fragment.
  (3) They are read to their end. Only an integer of too many digits aborts.
  (4) Nothing else is read.
-/

namespace LineBasic

namespace Grammar

open Rule Spelling

/-! ## (1) What stands behind -/

/-- Nothing goes on with an expression. -/
def Free (k : Text) : Prop := Ends 4 k ∧ Stops Char.isUpper k

theorem sign_mem (op : BinaryOp) : op.sign ∈ ['+', '-', '*', '/'] := by cases op <;> decide

/-- Spaces and a character that goes on with no expression. -/
theorem ends_behind {a k : Text} {c : Char} (ha : Spaces a) (hs : isSpace c = false) (hc : clings c = false)
    (hop : c ∉ ['+', '-', '*', '/']) : Ends 4 (a ++ c :: k) :=
  ends_spaces ha hs hc fun op _ he => hop (he ▸ sign_mem op)

/-- Neither a space nor anything that may follow in an expression. -/
theorem free_cons {c : Char} {k : Text} (hs : isSpace c = false) (hc : clings c = false) (hu : c.isUpper = false)
    (hop : c ∉ ['+', '-', '*', '/']) : Free (c :: k) :=
  ⟨ends_behind spaces_nil hs hc hop, by simpa using hu⟩

theorem free_space {c : Char} {k : Text} (hs : isSpace c = false) (hop : c ∉ ['+', '-', '*', '/']) :
    Free (' ' :: c :: k) := by
  have noSign : ∀ op : BinaryOp, c ≠ op.sign := fun op he => hop (he ▸ sign_mem op)
  refine ⟨⟨by simp [clings], fun op _ => ?_⟩, by simp⟩
  have ahead : (' ' :: c :: k).dropWhile isSpace = c :: k := dropWhile_spaces spaces_one hs
  rw [ahead]
  simpa using noSign op

theorem free_semicolon (t : Text) : Free (';' :: t) := free_cons (by decide) (by decide) (by decide) (by decide)

theorem free_comma (t : Text) : Free (',' :: t) := free_cons (by decide) (by decide) (by decide) (by decide)

theorem no_tab {t : Text} (h : t.head? ≠ some 'T') : "TAB(".toList.isPrefixOf t = false := by
  cases t with
  | nil => rfl
  | cons c t =>
    have : 'T' ≠ c := by
      rintro rfl
      exact h rfl
    simp [List.isPrefixOf, this]

/-- No atom begins like a call of TAB before anything but a capital. -/
theorem atom_no_tab {fits : Text → Prop} {s k : Text} {e : Expression} (h : Atom fits s e)
    (hk : Stops Char.isUpper k) : "TAB(".toList.isPrefixOf (s ++ k) = false := by
  have digits : ∀ w t : Text, Digits w → "TAB(".toList.isPrefixOf (w ++ t) = false := by
    intro w t hw
    obtain ⟨c, w, rfl⟩ := List.exists_cons_of_ne_nil hw.1
    refine no_tab ?_
    rintro ⟨⟩
    have := hw.2 'T' (by simp)
    simp at this
  have second : ∀ (c d : Char) (t : Text), d ≠ 'A' → "TAB(".toList.isPrefixOf (c :: d :: t) = false := by
    intro c d t hd
    simp [List.isPrefixOf, Ne.symm hd]
  cases h with
  | parenthesised => exact no_tab (by simp)
  | call f => cases f <;> exact no_tab (by simp [BuiltIn.spelling])
  | negation => exact no_tab (by simp)
  | real hw =>
    rw [List.append_assoc, List.append_assoc]
    exact digits _ _ hw
  | integer hw => exact digits _ _ hw
  | @scalar c =>
    cases k with
    | nil => simp [List.isPrefixOf]
    | cons d k =>
      refine second c d k ?_
      rintro rfl
      simp at hk
  | element h =>
    cases h with
    | indexed => exact second _ '(' _ (by decide)

theorem chain_no_tab {fits : Text → Prop} {s k : Text} {e : Expression} (h : Chain fits s e)
    (hk : Stops Char.isUpper k) : "TAB(".toList.isPrefixOf (s ++ k) = false := by
  cases h with
  | chain hs hr =>
    rw [List.append_assoc]
    refine atom_no_tab hs ?_
    cases hr with
    | none => exact hk
    | @more a b t y r links op ha =>
      have all : a ++ [op.sign] ++ b ++ t ++ r ++ k = a ++ op.sign :: (b ++ t ++ r ++ k) := by simp
      rw [all]
      exact stops_spaces ha (by decide) (sign_stops op).2.2

/-- Nothing is there that a string expression begins with. -/
theorem skips_stringBody {k : Text} (h : Stops begins k) (hq : Stops (· = '"') k) : Skips False stringBody k := by
  have noTab : k.head? ≠ some 'T' := h.head_ne (by decide)
  have skipsFragment : Skips False fragment k := by
    refine .firstOf fun p hp => ?_
    simp only [List.mem_cons, List.not_mem_nil, or_false] at hp
    rcases hp with rfl | rfl | rfl
    · exact (skips_quoted hq).bind
    · exact (skips_literal (no_tab noTab)).bind
    · exact (skips_expression h).bind
  rw [stringBody_eq]
  exact skipsFragment.bind

/-- No separator with a body behind it. -/
def NoMore (k : Text) : Prop := ∀ separator ∈ [";", ","], ∀ g : StringExpression → Rule StringExpression,
  Skips False (do literal separator; spaces; let r ← stringBody; g r) k

/-- Spaces, and then nothing or a colon: what may be behind a statement. -/
def Closes (k : Text) : Prop := ∃ a r, k = a ++ r ∧ Spaces a ∧ (r = [] ∨ ∃ u, r = ':' :: u)

namespace Closes

variable {k : Text} (h : Closes k)

include h

theorem stops {p : Char → Bool} (hs : p ' ' = false) (hc : p ':' = false) : Stops p k := by
  obtain ⟨a, r, rfl, ha, rfl | ⟨u, rfl⟩⟩ := h
  · rw [List.append_nil]
    exact spaces_stops ha hs
  · exact stops_spaces ha hs hc

theorem head {c : Char} (hs : c ≠ ' ') (hc : c ≠ ':') : k.head? ≠ some c := by
  have none : Stops (fun d => decide (d = c)) k := h.stops (by simpa using hs.symm) (by simpa using hc.symm)
  exact none.head_ne (by simp)

/-- Behind the spaces there is at most a colon. -/
theorem behind {c : Char} (hc : c ≠ ':') : (k.dropWhile isSpace).head? ≠ some c := by
  obtain ⟨a, r, rfl, ha, rfl | ⟨u, rfl⟩⟩ := h
  · rw [dropWhile_run ha.isSpace (stops_nil _)]
    simp
  · rw [dropWhile_spaces ha (by decide)]
    simpa using hc.symm

theorem free : Free k :=
  ⟨⟨h.stops (by decide) (by decide), fun op _ => h.behind (by cases op <;> decide)⟩, h.stops (by decide) (by decide)⟩

theorem noMore : NoMore k := by
  intro separator hs g
  simp only [List.mem_cons, List.not_mem_nil, or_false] at hs
  rcases hs with rfl | rfl
  · exact (skips_literal_char (c := ';') rfl (h.head (by decide) (by decide))).bind
  · exact (skips_literal_char (c := ',') rfl (h.head (by decide) (by decide))).bind

/-- No body is behind a separator that ends a string expression. -/
theorem skips_behind (g : StringExpression → Rule StringExpression) :
    Skips False (do spaces; let r ← stringBody; g r) k := by
  obtain ⟨a, r, rfl, ha, hr⟩ := h
  have noBody : Stops isSpace r ∧ Skips False stringBody r := by
    rcases hr with rfl | ⟨u, rfl⟩
    · exact ⟨stops_nil _, skips_stringBody (stops_nil _) (stops_nil _)⟩
    · exact ⟨by simp [isSpace], skips_stringBody (by simp [begins]) (by simp)⟩
  exact (takes_spaces ha noBody.1).bind_skips noBody.2.bind

theorem noMore_semicolon : NoMore (';' :: k) := by
  intro separator hs g
  simp only [List.mem_cons, List.not_mem_nil, or_false] at hs
  rcases hs with rfl | rfl
  · exact (takes_literal ";").bind_skips (h.skips_behind g)
  · exact (skips_literal_char (c := ',') rfl (by simp)).bind

theorem noMore_comma : NoMore (',' :: k) := by
  intro separator hs g
  simp only [List.mem_cons, List.not_mem_nil, or_false] at hs
  rcases hs with rfl | rfl
  · exact (skips_literal_char (c := ';') rfl (by simp)).bind
  · exact (takes_literal ",").bind_skips (h.skips_behind g)

end Closes

end Grammar

/-! ## (2) Fragments and separators -/

inductive Separator where
  | semicolon
  | comma
  deriving DecidableEq, Repr

namespace Separator

def sign : Separator → Char
  | semicolon => ';'
  | comma => ','

def join : Separator → StringExpression → StringExpression → StringExpression
  | semicolon => .concat
  | comma => .concatTab

/-- A string expression with the separator at its end. -/
def trail : Separator → StringExpression → StringExpression
  | semicolon => .suppressNewline
  | comma => .trailingTab

end Separator

/-- The text of a separator that may be missing. -/
def danglingText : Option Separator → Text
  | none => []
  | some separator => [separator.sign]

def danglingTree : Option Separator → StringExpression → StringExpression
  | none => id
  | some separator => separator.trail

namespace Spelling

/-- One fragment, with limits to its integers. -/
inductive Part (fits : Text → Prop) : Text → StringExpression → Prop
  | literal {b} : '"' ∉ b → Part fits (['"'] ++ b ++ ['"']) (.literal b)
  | tab {a w b} : Spaces a → Digits w → fits w → Spaces b →
      Part fits ("TAB(".toList ++ a ++ w ++ b ++ [')']) (.tab (decimalValue w))
  | number {s e} : Chain fits s e → Part fits s (.number e)

inductive Parts (fits : Text → Prop) : Text → StringExpression → Prop
  | part {s f} : Part fits s f → Parts fits s f
  | join {s f a r b} (separator : Separator) : Part fits s f → Spaces a → Parts fits r b →
      Parts fits (s ++ [separator.sign] ++ a ++ r) (separator.join f b)

end Spelling

/-! ## (3) What is read -/

namespace Grammar

open Rule Spelling

section Parts

variable {fits : Text → Prop} {s k : Text} {f b : StringExpression}

theorem Separator.free (separator : Separator) (k : Text) : Free (separator.sign :: k) := by
  cases separator with
  | semicolon => exact free_semicolon k
  | comma => exact free_comma k

theorem takes_part (h : Part fits s f) (hk : Free k) : Takes (Long fits) fragment s f k := by
  cases h with
  | literal hb => exact .orElse ((by simpa using takes_quoted hb : Takes (Long fits) quoted _ _ k).bind_nil takes_pure)
  | @tab a w b ha hw hfit hb =>
    have all : "TAB(".toList ++ a ++ w ++ b ++ [')'] = "TAB(".toList ++ (a ++ (w ++ (b ++ ")".toList))) := by simp
    have behind : Stops Char.isDigit (b ++ ")".toList ++ k) := by
      simpa using stops_spaces (p := Char.isDigit) (k := k) hb (by decide) (c := ')') (by decide)
    have column : Takes (Long fits) integer w (decimalValue w) (b ++ ")".toList ++ k) :=
      takes_integer hw behind fun hlong => ⟨w, hfit, hlong⟩
    rw [all]
    refine Skips.orElse_takes (skips_quoted (by simp)).bind (.orElse ?_)
    refine .bind (takes_literal _) (.bind (takes_spaces ha ?_) (.bind column ?_))
    · simpa using digits_head hw (b ++ ')' :: k)
    · exact .bind (takes_spaces hb (by simp [isSpace])) ((takes_literal _).bind_nil takes_pure)
  | @number s e he =>
    have noQuote : Stops (· = '"') (s ++ k) := by
      obtain ⟨c, t, rfl, hc⟩ := chain_begins he
      have : c ≠ '"' := by
        rintro rfl
        simp [begins] at hc
      simpa using this
    refine Skips.orElse_takes (skips_quoted noQuote).bind ?_
    refine Skips.orElse_takes (skips_literal (chain_no_tab he hk.2)).bind ?_
    exact .orElse (((takes_expression he hk.1).mono fun hrisk => hrisk.long hk.2).bind_nil takes_pure)

theorem part_begins (h : Part fits s f) : ∃ c t, s = c :: t ∧ isSpace c = false := by
  cases h with
  | literal => exact ⟨'"', _, rfl, by decide⟩
  | tab => exact ⟨'T', _, rfl, by decide⟩
  | number he =>
    obtain ⟨c, t, rfl, -⟩ := chain_begins he
    exact ⟨c, t, rfl, by simpa using chain_head he []⟩

theorem part_head (h : Part fits s f) (k : Text) : Stops isSpace (s ++ k) := by
  obtain ⟨c, t, rfl, hc⟩ := part_begins h
  simpa using hc

theorem parts_head (h : Parts fits s b) (k : Text) : Stops isSpace (s ++ k) := by
  cases h with
  | part hf => exact part_head hf k
  | join separator hf =>
    rw [List.append_assoc, List.append_assoc, List.append_assoc]
    exact part_head hf _

theorem takes_parts (h : Parts fits s b) (hk : Free k) (hn : NoMore k) : Takes (Long fits) stringBody s b k := by
  induction h with
  | part hf =>
    rw [stringBody_eq]
    refine (takes_part hf hk).bind_nil (Skips.orElse_takes ((hn ";" (by simp) _).mono False.elim) ?_)
    exact Skips.orElse_takes ((hn "," (by simp) _).mono False.elim) takes_pure
  | @join s f a r b separator hf ha hb ih =>
    have first := takes_part hf (Separator.free separator (a ++ r ++ k))
    have next : Stops isSpace (r ++ k) := parts_head hb k
    rw [stringBody_eq]
    cases separator with
    | semicolon =>
      have all : s ++ [Separator.semicolon.sign] ++ a ++ r = s ++ (";".toList ++ (a ++ r)) := by simp [Separator.sign]
      rw [all]
      refine .bind (by simpa [Separator.sign] using first) (.orElse ?_)
      exact .bind (takes_literal _) (.bind (takes_spaces ha next) (ih.bind_nil takes_pure))
    | comma =>
      have all : s ++ [Separator.comma.sign] ++ a ++ r = s ++ (",".toList ++ (a ++ r)) := by simp [Separator.sign]
      rw [all]
      refine .bind (by simpa [Separator.sign] using first) (Skips.orElse_takes ?_ (.orElse ?_))
      · exact (skips_literal_char (c := ';') rfl (by simp)).bind
      · exact .bind (takes_literal _) (.bind (takes_spaces ha next) (ih.bind_nil takes_pure))

/-- Parts fragments with a separator at their end, or without one. -/
theorem takes_dangling (h : Parts fits s b) (d : Option Separator) (hk : Closes k) :
    Takes (Long fits) stringExpression (s ++ danglingText d) (danglingTree d b) k := by
  cases d with
  | none =>
    rw [danglingText, List.append_nil]
    refine (takes_parts h hk.free hk.noMore).bind_nil ?_
    refine Skips.orElse_takes (skips_literal_char (c := ',') rfl (hk.head (by decide) (by decide))).bind ?_
    exact Skips.orElse_takes (skips_literal_char (c := ';') rfl (hk.head (by decide) (by decide))).bind takes_pure
  | some separator =>
    cases separator with
    | semicolon =>
      show Takes (Long fits) stringExpression (s ++ [';']) (.suppressNewline b) k
      refine .bind (takes_parts h (by simpa using free_semicolon k) (by simpa using hk.noMore_semicolon)) ?_
      refine Skips.orElse_takes (skips_literal_char (c := ',') rfl (by simp)).bind (.orElse ?_)
      exact (takes_literal ";").bind_nil takes_pure
    | comma =>
      show Takes (Long fits) stringExpression (s ++ [',']) (.trailingTab b) k
      refine .bind (takes_parts h (by simpa using free_comma k) (by simpa using hk.noMore_comma)) (.orElse ?_)
      exact (takes_literal ",").bind_nil takes_pure

end Parts

/-! ## (4) What is found -/

theorem sound_part : Sound fragment (Part withinLimit) := by
  refine .firstOf fun p hp => ?_
  simp only [List.mem_cons, List.not_mem_nil, or_false] at hp
  rcases hp with rfl | rfl | rfl
  · refine sound_quoted.bind fun s b h => sound_pure ?_
    simpa [h.1] using Part.literal h.2
  · refine (sound_literal "TAB(").bind fun p _ hp => sound_spaces.bind fun a _ ha => sound_integer.bind fun w n hn => ?_
    refine sound_spaces.bind fun b _ hb => (sound_literal ")").bind fun q _ hq => sound_pure ?_
    obtain ⟨hw, hfit, rfl⟩ := hn
    simpa [hp, hq] using Part.tab ha hw hfit hb
  · refine sound_expression.bind fun s e h => sound_pure ?_
    simpa using Part.number h

theorem sound_parts : Sound stringBody (Parts withinLimit) := by
  refine .fix fun body h => sound_part.bind fun s f hf => .orElse ?_ (.orElse ?_ (sound_pure ?_))
  · refine (sound_literal ";").bind fun p _ hp => sound_spaces.bind fun a _ ha => h.bind fun r b hb => sound_pure ?_
    simpa [hp, Separator.sign, Separator.join] using Parts.join .semicolon hf ha hb
  · refine (sound_literal ",").bind fun p _ hp => sound_spaces.bind fun a _ ha => h.bind fun r b hb => sound_pure ?_
    simpa [hp, Separator.sign, Separator.join] using Parts.join .comma hf ha hb
  · simpa using Parts.part hf

theorem sound_dangling : Sound stringExpression fun s w =>
    ∃ u b d, Parts withinLimit u b ∧ s = u ++ danglingText d ∧ w = danglingTree d b := by
  refine sound_parts.bind fun u b hb => .orElse ?_ (.orElse ?_ (sound_pure ?_))
  · refine (sound_literal ",").bind fun p _ hp => sound_pure ⟨u, b, some .comma, hb, ?_, rfl⟩
    simp [hp, danglingText, Separator.sign]
  · refine (sound_literal ";").bind fun p _ hp => sound_pure ⟨u, b, some .semicolon, hb, ?_, rfl⟩
    simp [hp, danglingText, Separator.sign]
  · exact ⟨u, b, none, hb, rfl, rfl⟩

end Grammar

end LineBasic
