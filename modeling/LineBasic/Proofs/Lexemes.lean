import LineBasic.Proofs.Reading

/-
  LineBasic.Proofs.Lexemes — what the rules that read characters find, and what they are sure to find.

  A lexeme is as long as it can be, so what comes behind it matters: a run of digits is read up to its end if the text
  behind it begins with no digit (`Stops`), and spaces likewise.
-/

namespace LineBasic

variable {α : Type}

/-! ## Runs of characters -/

/-- A run of characters that satisfy `p` ends before `k`. -/
def Stops (p : Char → Bool) (k : Text) : Prop := ∀ c ∈ k.head?, p c = false

@[simp] theorem stops_nil (p : Char → Bool) : Stops p [] := by simp [Stops]

@[simp] theorem stops_cons (p : Char → Bool) (c : Char) (k : Text) : Stops p (c :: k) ↔ p c = false := by simp [Stops]

theorem Stops.mono {p q : Char → Bool} {k : Text} (h : Stops p k) (hpq : ∀ c, q c = true → p c = true) : Stops q k := by
  intro c hc
  by_cases hq : q c = true
  · have := h c hc
    rw [hpq c hq] at this
    cases this
  · simpa using hq

theorem Stops.head_ne {p : Char → Bool} {k : Text} {c : Char} (h : Stops p k) (hc : p c = true) : k.head? ≠ some c := by
  intro hk
  rw [h c hk] at hc
  cases hc

theorem Stops.takeWhile {p : Char → Bool} {k : Text} (h : Stops p k) : k.takeWhile p = [] := by
  cases k with
  | nil => rfl
  | cons c k => simp [(stops_cons p c k).mp h]

theorem Stops.dropWhile {p : Char → Bool} {k : Text} (h : Stops p k) : k.dropWhile p = k := by
  cases k with
  | nil => rfl
  | cons c k => simp [(stops_cons p c k).mp h]

theorem takeWhile_run {p : Char → Bool} {s k : Text} (hs : ∀ c ∈ s, p c = true) (hk : Stops p k) :
    (s ++ k).takeWhile p = s := by
  rw [List.takeWhile_append_of_pos hs, hk.takeWhile, List.append_nil]

theorem dropWhile_run {p : Char → Bool} {s k : Text} (hs : ∀ c ∈ s, p c = true) (hk : Stops p k) :
    (s ++ k).dropWhile p = k := by
  rw [List.dropWhile_append_of_pos hs, hk.dropWhile]

/-- A text is a run and what is behind the run in one way only. -/
theorem run_inj {p : Char → Bool} {s s' k k' : Text} (hs : ∀ c ∈ s, p c = true) (hs' : ∀ c ∈ s', p c = true)
    (hk : Stops p k) (hk' : Stops p k') (h : s ++ k = s' ++ k') : s = s' ∧ k = k' := by
  have same : s = s' := by rw [← takeWhile_run hs hk, h, takeWhile_run hs' hk']
  exact ⟨same, List.append_cancel_left (same ▸ h)⟩

/-- Every text is a run of characters that satisfy `p` and what comes behind the run. -/
theorem exists_run (p : Char → Bool) (t : Text) : ∃ s k, t = s ++ k ∧ (∀ c ∈ s, p c = true) ∧ Stops p k := by
  refine ⟨t.takeWhile p, t.dropWhile p, List.takeWhile_append_dropWhile.symm, ?_, ?_⟩
  · exact List.all_eq_true.mp List.all_takeWhile
  · intro c hc
    have := List.head?_dropWhile_not p t
    rw [Option.mem_def.mp hc] at this
    exact this

/-- Zero or more spaces. -/
def Spaces (a : Text) : Prop := ∀ c ∈ a, c = ' '

/-- One or more digits. -/
def Digits (w : Text) : Prop := w ≠ [] ∧ ∀ c ∈ w, c.isDigit = true

def isSpace (c : Char) : Bool := c = ' '

theorem Spaces.isSpace {a : Text} (h : Spaces a) : ∀ c ∈ a, isSpace c = true := fun c hc => decide_eq_true (h c hc)

theorem spaces_nil : Spaces [] := by simp [Spaces]

theorem spaces_one : Spaces [' '] := by simp [Spaces]

theorem isUpper_iff {c : Char} : c.isUpper = true ↔ 'A'.toNat ≤ c.toNat ∧ c.toNat ≤ 'Z'.toNat := by
  show decide ('A'.val ≤ c.val ∧ c.val ≤ 'Z'.val) = true ↔ _
  rw [decide_eq_true_iff, UInt32.le_iff_toNat_le, UInt32.le_iff_toNat_le]
  exact Iff.rfl

theorem isLower_iff {c : Char} : c.isLower = true ↔ 'a'.toNat ≤ c.toNat ∧ c.toNat ≤ 'z'.toNat := by
  show (decide ('a'.val ≤ c.val) && decide (c.val ≤ 'z'.val)) = true ↔ _
  rw [Bool.and_eq_true, decide_eq_true_iff, decide_eq_true_iff, UInt32.le_iff_toNat_le, UInt32.le_iff_toNat_le]
  exact Iff.rfl

theorem isAlpha_iff {c : Char} : c.isAlpha = true ↔ c.isUpper = true ∨ c.isLower = true := by
  show (c.isUpper || c.isLower) = true ↔ _
  rw [Bool.or_eq_true]

theorem isDigit_of_isAlpha {c : Char} (h : c.isAlpha = true) : c.isDigit = false := by
  have letter : 'A'.toNat ≤ c.toNat := by
    rcases isAlpha_iff.mp h with hu | hl
    · exact (isUpper_iff.mp hu).1
    · exact Nat.le_trans (by decide) (isLower_iff.mp hl).1
  by_cases hd : c.isDigit = true
  · have small : c.toNat ≤ '9'.toNat := (Char.isDigit_iff_toNat.mp hd).2
    exact absurd (Nat.le_trans letter small) (by decide)
  · simpa using hd

theorem isAlpha_of_isUpper {c : Char} (h : c.isUpper = true) : c.isAlpha = true := isAlpha_iff.mpr (.inl h)

theorem isDigit_of_isUpper {c : Char} (h : c.isUpper = true) : c.isDigit = false :=
  isDigit_of_isAlpha (isAlpha_of_isUpper h)

theorem isUpper_of_isDigit {c : Char} (h : c.isDigit = true) : c.isUpper = false := by
  cases hu : c.isUpper with
  | false => rfl
  | true => simp [isDigit_of_isUpper hu] at h

namespace Rule

variable {R : Prop} {s t k w f : Text} {v : α} {wanted : Wanted} {scan : Text → Option (α × Nat)} {L : Text → α → Prop}

/-! ## Any lexeme -/

theorem sound_lexeme (h : ∀ t v n, scan t = some (v, n) → ∃ s k, t = s ++ k ∧ n = s.length ∧ L s v) :
    Sound (lexeme wanted scan) L := by
  intro c v d hf
  unfold lexeme at hf
  cases hs : scan c.rest with
  | none => simp [hs] at hf
  | some r =>
    obtain ⟨s, k, ht, hn, hL⟩ := h c.rest r.1 r.2 hs
    simp only [hs] at hf
    cases hf
    exact ⟨s, ⟨by simp [Cursor.advance, ht, hn], by simp [Cursor.advance, hn]⟩, hL⟩

theorem takes_lexeme (h : scan (s ++ k) = some (v, s.length)) : Takes R (lexeme wanted scan) s v k := by
  intro o
  refine .inl ?_
  simp [lexeme, h, Cursor.advance]

theorem skips_lexeme (h : scan t = none) : Skips R (lexeme wanted scan) t := by
  intro o
  refine .inl ?_
  simp [lexeme, h]

/-! ## Spaces and literal text -/

theorem sound_spaces : Sound spaces fun s _ => Spaces s := by
  intro c v d h
  obtain ⟨s, k, ht, hs, hk⟩ := exists_run (fun c => decide (c = ' ')) c.rest
  cases h
  rw [ht, takeWhile_run hs hk]
  exact ⟨s, ⟨by simp [Cursor.advance, ht], rfl⟩, fun c hc => by simpa using hs c hc⟩

theorem takes_spaces (hs : Spaces s) (hk : Stops isSpace k) : Takes R spaces s () k := by
  intro o
  have h : (s ++ k).takeWhile (fun c => decide (c = ' ')) = s := takeWhile_run hs.isSpace hk
  refine .inl ?_
  simp [spaces, h, Cursor.advance]

theorem takes_no_space (hk : Stops isSpace k) : Takes R spaces [] () k := takes_spaces spaces_nil hk

theorem takes_space (hk : Stops isSpace k) : Takes R spaces [' '] () k := takes_spaces spaces_one hk

theorem sound_literal (spelling : String) : Sound (literal spelling) fun s _ => s = spelling.toList := by
  refine sound_lexeme fun t v n h => ?_
  split at h
  · rename_i hp
    obtain ⟨k, rfl⟩ := List.isPrefixOf_iff_prefix.mp hp
    cases h
    exact ⟨_, k, rfl, rfl, rfl⟩
  · cases h

theorem takes_literal (spelling : String) : Takes R (literal spelling) spelling.toList () k :=
  takes_lexeme (if_pos (List.isPrefixOf_iff_prefix.mpr (List.prefix_append _ k)))

theorem skips_literal {spelling : String} (h : spelling.toList.isPrefixOf t = false) : Skips R (literal spelling) t :=
  skips_lexeme (if_neg (by simp [h]))

theorem skips_literal_char {spelling : String} {c : Char} (hs : spelling.toList = [c]) (h : t.head? ≠ some c) :
    Skips R (literal spelling) t := by
  refine skips_literal ?_
  rw [hs]
  cases t with
  | nil => rfl
  | cons d t =>
    have hd : ¬ c = d := fun he => h (by simp [he])
    simp [List.isPrefixOf, hd]

/-- Literal text is missing behind spaces. -/
theorem skips_spaces_literal {spelling : String} {c : Char} {f : Unit → Rule α} (hs : spelling.toList = [c])
    (h : (t.dropWhile isSpace).head? ≠ some c) : Skips R (do spaces; let v ← literal spelling; f v) t := by
  obtain ⟨a, k, rfl, ha, hk⟩ := exists_run isSpace t
  rw [dropWhile_run ha hk] at h
  exact (takes_spaces (fun c hc => by simpa [isSpace] using ha c hc) hk).bind_skips (skips_literal_char hs h).bind

/-! ## Numbers -/

theorem sound_digits : Sound (lexeme .integer Lexeme.digits) fun s v => s = v ∧ Digits v := by
  refine sound_lexeme fun t v n h => ?_
  obtain ⟨s, k, rfl, hs, hk⟩ := exists_run Char.isDigit t
  simp only [Lexeme.digits, takeWhile_run hs hk] at h
  split at h
  · cases h
  · rename_i hne
    cases h
    exact ⟨_, k, rfl, rfl, rfl, hne, hs⟩

theorem sound_integer :
    Sound integer fun s n => Digits s ∧ s.length ≤ digitLimit ∧ n = decimalValue s := by
  refine sound_digits.bind fun s v h => ?_
  obtain ⟨rfl, hd⟩ := h
  split
  · exact sound_abort _
  · exact sound_pure (by simp_all)

theorem takes_integer (hs : Digits s) (hk : Stops Char.isDigit k) (hR : digitLimit < s.length → R) :
    Takes R integer s (decimalValue s) k := by
  have hd : Lexeme.digits (s ++ k) = some (s, s.length) := by simp [Lexeme.digits, takeWhile_run hs.2 hk, hs.1]
  intro o
  rw [show (integer.run ⟨o, s ++ k⟩) = _ from run_bind _ _ _, Reply.outcome_andThen]
  simp only [lexeme, hd]
  split
  · exact .inr ⟨hR ‹_›, _, rfl⟩
  · refine .inl ?_
    simp [Cursor.advance]

theorem skips_integer (h : Stops Char.isDigit t) : Skips R integer t :=
  Skips.bind (skips_lexeme (by simp [Lexeme.digits, h.takeWhile]))

theorem sound_real :
    Sound real fun s x => ∃ w f, Digits w ∧ Digits f ∧ s = w ++ '.' :: f ∧ x = .ofDecimal w f := by
  refine sound_lexeme fun t v n h => ?_
  obtain ⟨w, r, rfl, hw, hr⟩ := exists_run Char.isDigit t
  simp only [Lexeme.real, takeWhile_run hw hr, dropWhile_run hw hr] at h
  split at h
  · rename_i r
    obtain ⟨f, k, rfl, hf, hk⟩ := exists_run Char.isDigit r
    rw [takeWhile_run hf hk] at h
    split at h
    · cases h
    · rename_i hne
      rw [not_or] at hne
      cases h
      exact ⟨w ++ '.' :: f, k, by simp, by simp; omega, w, f, ⟨hne.1, hw⟩, ⟨hne.2, hf⟩, rfl, rfl⟩
  · cases h

theorem takes_real (hw : Digits w) (hf : Digits f) (hk : Stops Char.isDigit k) :
    Takes R real (w ++ '.' :: f) (.ofDecimal w f) k := by
  refine takes_lexeme ?_
  have hdot : Stops Char.isDigit ('.' :: (f ++ k)) := by simp
  have ht := takeWhile_run hw.2 hdot
  have hd := dropWhile_run hw.2 hdot
  simp only [Lexeme.real, List.append_assoc, List.cons_append, ht, hd, takeWhile_run hf.2 hk]
  simp [hw.1, hf.1]
  omega

theorem skips_real (h : Stops Char.isDigit t) : Skips R real t := by
  refine skips_lexeme ?_
  simp only [Lexeme.real, h.takeWhile]
  split <;> simp

/-- Digits alone are no decimal fraction. -/
theorem skips_real_digits (hs : Digits s) (hk : Stops (fun c => c.isDigit || c = '.') k) : Skips R real (s ++ k) := by
  have hd : Stops Char.isDigit k := hk.mono fun c hc => by simp [hc]
  refine skips_lexeme ?_
  simp only [Lexeme.real, dropWhile_run hs.2 hd]
  split
  · rename_i rest
    simp at hk
  · rfl

/-! ## Names and quoted text -/

theorem sound_letter : Sound letter fun s c => s = [c] ∧ c.isAlpha = true := by
  refine sound_lexeme fun t v n h => ?_
  cases t with
  | nil => cases h
  | cons c t =>
    simp only [Lexeme.letter] at h
    split at h
    · cases h
      exact ⟨[v], t, rfl, rfl, rfl, ‹_›⟩
    · cases h

theorem takes_letter {c : Char} (h : c.isAlpha = true) : Takes R letter [c] c k :=
  takes_lexeme (by simp [Lexeme.letter, h])

theorem skips_letter (h : Stops Char.isAlpha t) : Skips R letter t := by
  refine skips_lexeme ?_
  cases t with
  | nil => rfl
  | cons c t => simp [Lexeme.letter, (stops_cons _ c t).mp h]

theorem sound_quoted : Sound quoted fun s v => s = '"' :: (v ++ ['"']) ∧ '"' ∉ v := by
  refine sound_lexeme fun t v n h => ?_
  unfold Lexeme.quoted at h
  split at h
  · rename_i rest
    obtain ⟨b, k, rfl, hb, hk⟩ := exists_run (fun c => decide (c ≠ '"')) rest
    rw [takeWhile_run hb hk] at h
    cases k with
    | nil => simp at h
    | cons q k =>
      obtain rfl : q = '"' := by simpa using hk
      simp at h
      obtain ⟨rfl, rfl⟩ := h
      exact ⟨'"' :: (b ++ ['"']), k, by simp, by simp, rfl, fun hm => by simpa using hb _ hm⟩
  · cases h

theorem takes_quoted {b : Text} (h : '"' ∉ b) : Takes R quoted ('"' :: (b ++ ['"'])) b k := by
  refine takes_lexeme ?_
  have hb : ∀ c ∈ b, decide (c ≠ '"') = true := fun c hc => by
    simp
    rintro rfl
    exact h hc
  have ht := takeWhile_run (k := '"' :: k) hb (by simp)
  simp only [Lexeme.quoted, List.cons_append, List.append_assoc, List.nil_append, ht]
  simp

theorem skips_quoted (h : Stops (· = '"') t) : Skips R quoted t := by
  refine skips_lexeme ?_
  unfold Lexeme.quoted
  split
  · cases (stops_cons _ _ _).mp h
  · rfl

theorem sound_functionName : Sound functionName fun s n => s = n ∧ ∀ c ∈ n, c.isUpper = true := by
  refine sound_lexeme fun t v n h => ?_
  obtain ⟨s, k, rfl, hs, hk⟩ := exists_run Char.isUpper t
  simp only [Lexeme.functionName, takeWhile_run hs hk] at h
  split at h
  · cases h
    exact ⟨_, k, rfl, rfl, rfl, hs⟩
  · cases h

theorem takes_functionName (hs : ∀ c ∈ s, c.isUpper = true) (h2 : 2 ≤ s.length) :
    Takes R functionName s s ('(' :: k) := by
  refine takes_lexeme ?_
  have ht := takeWhile_run (p := Char.isUpper) (k := '(' :: k) hs (by simp)
  simp [Lexeme.functionName, ht, h2]

theorem skips_functionName (h : Stops Char.isUpper t) : Skips R functionName t :=
  skips_lexeme (by simp [Lexeme.functionName, h.takeWhile])

/-- A single capital is no name of a function. -/
theorem skips_functionName_single {c : Char} (h : Stops Char.isUpper t) : Skips R functionName (c :: t) := by
  refine skips_lexeme ?_
  by_cases hc : c.isUpper = true
  · have ht := takeWhile_run (s := [c]) (k := t) (by simpa using hc) h
    simp only [List.singleton_append] at ht
    simp [Lexeme.functionName, ht]
  · simp [Lexeme.functionName, hc]

/-! ## All of them read on -/

theorem advances_spaces : Advances spaces := sound_spaces.advances

theorem advances_literal (spelling : String) : Advances (literal spelling) := (sound_literal spelling).advances

theorem advances_keyword (spelling : String) : Advances (keyword spelling) :=
  (advances_literal spelling).bind fun _ => advances_spaces

theorem advances_integer : Advances integer := sound_integer.advances

theorem advances_letter : Advances letter := sound_letter.advances

theorem sound_restOfLine : Sound restOfLine fun _ _ => True := by
  intro c v d h
  cases h
  exact ⟨c.rest, ⟨by simp [Cursor.finish, Cursor.advance], rfl⟩, trivial⟩

theorem advances_restOfLine : Advances restOfLine := sound_restOfLine.advances

theorem takes_restOfLine (s : Text) : Takes R restOfLine s () [] := by
  intro o
  rw [List.append_nil]
  exact .inl (by simp [restOfLine, Cursor.finish, Cursor.advance])

/-! ## Whole texts -/

variable {p : Rule α} {pad : Text}

theorem sound_endOfLine : Sound endOfLine fun s _ => s = [] := by
  intro c v d h
  simp only [endOfLine] at h
  split at h
  · cases h
    exact ⟨[], c.reads_nil, rfl⟩
  · cases h

theorem takes_endOfLine : Takes R endOfLine [] () [] := fun _ => .inl rfl

theorem endOfLine_rest {c d : Cursor} {v : Unit} (h : (endOfLine.run c).outcome = .found v d) : d.rest = [] := by
  simp only [endOfLine] at h
  split at h
  · cases h
    assumption
  · cases h

theorem parse_eq_ok {t : Text} : p.parse t = .ok v ↔ ∃ d, (p.whole.run ⟨0, t⟩).outcome = .found v d := by
  simp only [parse, parseSpan]
  cases (p.whole.run ⟨0, t⟩).outcome <;> simp

/-- What a whole text is read as, all but the spaces at its end is read as. -/
theorem Sound.parse (h : Sound p L) {t : Text} (ht : p.parse t = .ok v) :
    ∃ s pad, t = s ++ pad ∧ Spaces pad ∧ L s v := by
  obtain ⟨e, he⟩ := parse_eq_ok.mp ht
  obtain ⟨v', d, hd, h1⟩ := found_bind.mp he
  obtain ⟨u, d₁, hd₁, h2⟩ := found_bind.mp h1
  obtain ⟨u', d₂, hd₂, h3⟩ := found_bind.mp h2
  cases h3
  obtain ⟨s, hs, hL⟩ := h _ _ _ hd
  obtain ⟨pad, hpad, hsp⟩ := sound_spaces _ _ _ hd₁
  obtain ⟨r, hr, rfl⟩ := sound_endOfLine _ _ _ hd₂
  have all := ((hs.trans hpad).trans hr).1
  rw [endOfLine_rest hd₂, List.append_nil, List.append_nil] at all
  exact ⟨s, pad, all, hsp, hL⟩

theorem Takes.parse (h : Takes R p s v pad) (hpad : Spaces pad) (hR : ¬ R) : p.parse (s ++ pad) = .ok v := by
  have all : Takes R p.whole (s ++ pad) v [] := by
    refine .bind (by simpa using h) ?_
    exact (takes_spaces hpad (stops_nil _)).bind_nil (takes_endOfLine.bind_nil takes_pure)
  have found := (all 0).resolve hR
  rw [List.append_nil] at found
  exact parse_eq_ok.mpr ⟨_, found⟩

end Rule

end LineBasic
