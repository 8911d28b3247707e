import LineBasic.Proofs.Chaining
import LineBasic.Proofs.Lookahead

/-
  LineBasic.Proofs.Cutting — the text behind the farthest miss does not matter.

  If nothing is missed behind an offset, and nothing is found that ends behind it, then the text from there on has only
  been looked at in vain, and the rule replies alike where it is cut off (`Composed.cut`). A lexeme that is as long as it
  can be reads the same without it. The name of a function needs the parenthesis behind it, but that is read next.
-/

namespace LineBasic

variable {α β : Type}

/-- The reply has not got beyond the offset `n`, where `a` is cut off: it misses nothing and finds nothing behind it.
    If too many digits were counted, there are none in `a`. -/
structure Reply.Near (n : Nat) (a : Text) (r : Reply α) : Prop where
  misses : r.Within n
  found : ∀ v d, r.outcome = .found v d → d.offset ≤ n
  aborted : ∀ cause, r.outcome = .aborted cause →
    (∃ count, cause = .tooManyDigits count) ∧ ∀ ch ∈ a, ch.isDigit = false

/-! ## Lexemes -/

theorem takeWhile_cut {p : Char → Bool} {t a : Text} (h : ((t ++ a).takeWhile p).length ≤ t.length) :
    (t ++ a).takeWhile p = t.takeWhile p := by
  obtain ⟨s, k, rfl, hs, hk⟩ := exists_run p t
  cases k with
  | nil =>
    rw [List.append_nil] at h ⊢
    rw [List.takeWhile_append_of_pos hs, List.length_append] at h
    have none : a.takeWhile p = [] := List.eq_nil_of_length_eq_zero (by omega)
    have all := takeWhile_run (k := []) hs (stops_nil p)
    rw [List.append_nil] at all
    rw [List.takeWhile_append_of_pos hs, none, List.append_nil, all]
  | cons x k =>
    have stops : ∀ l, Stops p (x :: k ++ l) := fun _ => by simpa using hk
    rw [List.append_assoc, takeWhile_run hs (stops a), takeWhile_run hs hk]

namespace Rule

/-- What the lexeme reads is the same where `a` is cut off, if it is not read into. -/
def Cuts (scan : Text → Option (α × Nat)) : Prop :=
  ∀ t a, (∀ r, scan (t ++ a) = some r → r.2 ≤ t.length) → scan (t ++ a) = scan t

theorem cuts_letter : Cuts Lexeme.letter := by
  intro t a h
  cases t with
  | cons x t => rfl
  | nil =>
    cases a with
    | nil => rfl
    | cons x a =>
      by_cases hx : x.isAlpha = true
      · have := h (x, 1) (by simp [Lexeme.letter, hx])
        simp at this
      · simp [Lexeme.letter, hx]

theorem cuts_literal (word : Text) :
    Cuts fun ahead => if word.isPrefixOf ahead then some ((), word.length) else none := by
  intro t a h
  simp only [List.isPrefixOf_iff_prefix] at h ⊢
  by_cases hw : word <+: t ++ a
  · have short : word.length ≤ t.length := h ((), word.length) (if_pos hw)
    have cut : word <+: t := List.prefix_of_prefix_length_le hw (List.prefix_append t a) short
    rw [if_pos hw, if_pos cut]
  · rw [if_neg hw, if_neg fun cut => hw (cut.trans (List.prefix_append t a))]

theorem cuts_digits : Cuts Lexeme.digits := by
  intro t a h
  have run : (t ++ a).takeWhile Char.isDigit = t.takeWhile Char.isDigit := by
    refine takeWhile_cut ?_
    by_cases none : (t ++ a).takeWhile Char.isDigit = []
    · rw [none]
      exact Nat.zero_le _
    · exact h _ (by rw [Lexeme.digits, if_neg none])
  simp only [Lexeme.digits, run]

/-- What is quoted ends in a quote. -/
theorem cuts_quoted : Cuts Lexeme.quoted := by
  intro t a h
  cases t with
  | nil =>
    cases hs : Lexeme.quoted ([] ++ a) with
    | none => rfl
    | some r =>
      have short := h r hs
      rw [List.nil_append] at hs
      unfold Lexeme.quoted at hs
      split at hs
      · dsimp only at hs
        split at hs
        · cases hs
          simp at short
        · cases hs
      · cases hs
  | cons x t =>
    by_cases hx : x = '"'
    · subst hx
      obtain ⟨b, k, rfl, hb, hk⟩ := exists_run (fun c => decide (c ≠ '"')) t
      cases k with
      | nil =>
        have alone : (b ++ []).takeWhile (fun c => decide (c ≠ '"')) = b := takeWhile_run hb (stops_nil _)
        rw [List.append_nil] at h alone ⊢
        simp only [Lexeme.quoted, List.cons_append, alone, List.takeWhile_append_of_pos hb, List.length_append] at h ⊢
        rw [if_neg (Nat.lt_irrefl _), if_neg fun hl => ?_]
        have beyond := h _ (if_pos hl)
        simp only [List.length_cons] at beyond
        omega
      | cons q k =>
        have ht := takeWhile_run hb hk
        have ht' : (b ++ q :: (k ++ a)).takeWhile (fun c => decide (c ≠ '"')) = b := takeWhile_run hb (by simpa using hk)
        simp only [Lexeme.quoted, List.cons_append, List.append_assoc, ht, ht']
        simp
    · simp [Lexeme.quoted, hx]

theorem real_length {t : Text} {r : Binary64 × Nat} (h : Lexeme.real t = some r) :
    (t.takeWhile Char.isDigit).length < r.2 := by
  simp only [Lexeme.real] at h
  split at h
  · split at h
    · cases h
    · cases h
      simp
      omega
  · cases h

theorem cuts_real : Cuts Lexeme.real := by
  intro t a h
  obtain ⟨w, k, rfl, hw, hk⟩ := exists_run Char.isDigit t
  cases k with
  | nil =>
    -- Digits alone are no fraction, and a fraction would be read beyond them.
    have alone := takeWhile_run hw (stops_nil Char.isDigit)
    have rest := dropWhile_run hw (stops_nil Char.isDigit)
    rw [List.append_nil] at h alone rest ⊢
    have short : Lexeme.real w = none := by simp only [Lexeme.real, rest]
    rw [short]
    cases hs : Lexeme.real (w ++ a) with
    | none => rfl
    | some r =>
      have far := real_length hs
      have near := h r hs
      rw [List.takeWhile_append_of_pos hw, List.length_append] at far
      omega
  | cons x k =>
    have stops : Stops Char.isDigit (x :: (k ++ a)) := by simpa using hk
    rw [List.append_assoc, List.cons_append] at h ⊢
    simp only [Lexeme.real, takeWhile_run hw hk, dropWhile_run hw hk, takeWhile_run hw stops, dropWhile_run hw stops] at h ⊢
    by_cases hx : x = '.'
    · subst hx
      simp only [List.length_append, List.length_cons] at h ⊢
      by_cases hw' : w = []
      · simp [hw']
      · have fraction : (k ++ a).takeWhile Char.isDigit = k.takeWhile Char.isDigit := by
          refine takeWhile_cut ?_
          by_cases hf : (k ++ a).takeWhile Char.isDigit = []
          · rw [hf]
            exact Nat.zero_le _
          · have := h _ (if_neg (not_or.mpr ⟨hw', hf⟩))
            simp only at this
            omega
        rw [fraction]
    · split
      · rename_i he
        cases he
        exact absurd rfl hx
      · split
        · rename_i he
          cases he
          exact absurd rfl hx
        · rfl

/-- A name is the same where `a` is cut off, unless the parenthesis behind it is there. -/
theorem functionName_cut {t a : Text} (h : ∀ r, Lexeme.functionName (t ++ a) = some r → r.2 < t.length) :
    Lexeme.functionName (t ++ a) = Lexeme.functionName t := by
  obtain ⟨s, k, rfl, hs, hk⟩ := exists_run Char.isUpper t
  cases k with
  | nil =>
    have alone := takeWhile_run hs (stops_nil Char.isUpper)
    rw [List.append_nil] at h alone ⊢
    have short : Lexeme.functionName s = none := by
      have behind : s.drop s.length = [] := by simp
      simp only [Lexeme.functionName, alone, behind]
      simp
    rw [short]
    cases hl : Lexeme.functionName (s ++ a) with
    | none => rfl
    | some r =>
      have near := h r hl
      simp only [Lexeme.functionName, List.takeWhile_append_of_pos hs] at hl
      split at hl
      · cases hl
        simp only [List.length_append] at near
        omega
      · cases hl
  | cons x k =>
    have stops : Stops Char.isUpper (x :: (k ++ a)) := by simpa using hk
    rw [List.append_assoc, List.cons_append]
    simp only [Lexeme.functionName, takeWhile_run hs hk, takeWhile_run hs stops, List.drop_left, List.head?_cons]

theorem functionName_paren {t : Text} {r : Text × Nat} (h : Lexeme.functionName t = some r) :
    ∃ k, t.drop r.2 = '(' :: k := by
  simp only [Lexeme.functionName] at h
  split at h
  · rename_i hname
    cases h
    obtain ⟨-, hp⟩ := hname
    cases hd : t.drop (t.takeWhile Char.isUpper).length with
    | nil =>
      rw [hd] at hp
      cases hp
    | cons x k =>
      rw [hd] at hp
      cases hp
      exact ⟨k, rfl⟩
  · cases h

variable {words : List String} {toEnd : Prop} {p : Rule α} {c : Cursor} {a : Text}

theorem lexeme_alike {wanted : Wanted} {scan : Text → Option (α × Nat)} (ha : Advances (lexeme wanted scan)) {t : Text}
    (hc : c.rest = t ++ a) (same : scan (t ++ a) = scan t) :
    (lexeme wanted scan).run c = ((lexeme wanted scan).run ⟨c.offset, t⟩).extend a := by
  have text : c = Cursor.extend a ⟨c.offset, t⟩ := by simp [Cursor.extend, ← hc]
  have alike := extend_lexeme (c := ⟨c.offset, t⟩) ha same
  rw [← text] at alike
  exact alike

/-- A lexeme that has not got beyond the cut reads alike. -/
theorem cut_lexeme {wanted : Wanted} {scan : Text → Option (α × Nat)} (ha : Advances (lexeme wanted scan))
    (hcut : Cuts scan) {t : Text} (hc : c.rest = t ++ a)
    (hn : ((lexeme wanted scan).run c).Near (c.offset + t.length) a) :
    (lexeme wanted scan).run c = ((lexeme wanted scan).run ⟨c.offset, t⟩).extend a := by
  have same : scan (t ++ a) = scan t := by
    refine hcut t a fun r hr => ?_
    have found : ((lexeme wanted scan).run c).outcome = .found r.1 (c.advance r.2) := by simp [lexeme, hc, hr]
    have := hn.found _ _ found
    simp only [Cursor.advance] at this
    omega
  exact lexeme_alike ha hc same

/-- A reply that has not got beyond the cut does not begin behind it. -/
theorem near_begins {d : Cursor} {r : Reply α} {n : Nat} (h : Attentive words d r) (hn : r.Near n a)
    (hd : n < d.offset → d.rest ⊆ a) : d.offset ≤ n := by
  obtain ⟨outcome, misses⟩ := r
  cases outcome with
  | found v e =>
    obtain ⟨s, hs⟩ := h.reads v e rfl
    have := hn.found v e rfl
    rw [hs.2] at this
    omega
  | missing =>
    obtain ⟨m, rest, rfl⟩ := List.exists_cons_of_ne_nil (h.missing rfl)
    exact Nat.le_trans (h.between List.mem_cons_self).1 (hn.misses m List.mem_cons_self)
  | aborted cause =>
    obtain ⟨⟨count, rfl⟩, none⟩ := hn.aborted cause rfl
    obtain ⟨ch, hch, hdigit⟩ := h.digits count rfl
    refine Nat.le_of_not_lt fun hlt => ?_
    rw [none ch (hd hlt hch)] at hdigit
    cases hdigit

theorem misses_bind (f : α → Rule β) : (p.run c).misses ⊆ ((p >>= f).run c).misses := by
  rw [run_bind]
  unfold Reply.andThen
  split
  · exact List.subset_append_left _ _
  · exact List.Subset.refl _
  · exact List.Subset.refl _

theorem misses_orElse (q : Rule α) : (p.run c).misses ⊆ ((p <|> q).run c).misses := by
  rw [run_orElse]
  unfold Reply.orTry
  split
  · exact List.subset_append_left _ _
  · exact List.Subset.refl _

/-- What is behind the cut is part of what is cut off. -/
theorem rest_subset {t s : Text} {d : Cursor} (hc : c.rest = t ++ a) (hs : c.Reads s d)
    (hd : c.offset + t.length < d.offset) : d.rest ⊆ a := by
  have long : t.length < s.length := by
    rw [hs.2] at hd
    omega
  have text : t ++ a = s ++ d.rest := hc.symm.trans hs.1
  obtain ⟨x, rfl⟩ := List.prefix_of_prefix_length_le (List.prefix_append t a)
    (text ▸ List.prefix_append s d.rest) (Nat.le_of_lt long)
  rw [List.append_assoc, List.append_cancel_left_eq] at text
  rw [text]
  exact List.subset_append_right _ _

/-- What is read beyond the cut is part of what is cut off. -/
theorem beyond_cut {t s : Text} {d : Cursor} (hc : c.rest = t ++ a) (hs : c.Reads s d) (hd : t.length < s.length) :
    ∃ x ∈ s, x ∈ a := by
  have text : t ++ a = s ++ d.rest := hc.symm.trans hs.1
  obtain ⟨u, rfl⟩ := List.prefix_of_prefix_length_le (List.prefix_append t a)
    (text ▸ List.prefix_append s d.rest) (Nat.le_of_lt hd)
  rw [List.append_assoc, List.append_cancel_left_eq] at text
  cases u with
  | nil => simp at hd
  | cons x u => exact ⟨x, by simp, by simp [text]⟩

/-- The second part of a sequence has not got beyond the cut if the whole has not. -/
theorem near_second {f : α → Rule β} {v : α} {d : Cursor} {n : Nat} (h : (p.run c).outcome = .found v d)
    (hn : ((p >>= f).run c).Near n a) : ((f v).run d).Near n a := by
  rw [run_bind_found h] at hn
  exact ⟨fun m hm => hn.misses m (List.mem_append_right _ hm), hn.found, hn.aborted⟩

/-- What comes first has not got beyond the cut if the whole has not. -/
theorem near_first {f : α → Rule β} {t : Text} (h : Composed words toEnd p c)
    (hf : ∀ v d, (p.run c).outcome = .found v d → Composed words toEnd (f v) d) (hc : c.rest = t ++ a)
    (hn : ((p >>= f).run c).Near (c.offset + t.length) a) : (p.run c).Near (c.offset + t.length) a := by
  refine ⟨fun m hm => hn.misses m (misses_bind f hm), fun v d hd => ?_, fun cause hd => hn.aborted cause ?_⟩
  · obtain ⟨s, hs⟩ := h.attentive.reads v d hd
    exact near_begins (hf v d hd).attentive (near_second hd hn) fun hlt => rest_subset hc hs hlt
  · rw [run_bind_aborted hd]

/-- The end of the text before the cut stays where it is. -/
theorem cut_place {t s : Text} {d : Cursor} (hc : c.rest = t ++ a) (hs : c.Reads s (d.extend a)) :
    c.offset + t.length = d.offset + d.rest.length := by
  have := hs.finish
  rw [hc] at this
  simp only [Cursor.extend, List.length_append] at this
  omega

/-- Neither has the first of two alternatives, nor the second one where the first finds nothing. -/
theorem near_orElse {q : Rule α} {n : Nat} (hn : ((p <|> q).run c).Near n a) :
    (p.run c).Near n a ∧ ((p.run c).outcome = .missing → (q.run c).Near n a) := by
  refine ⟨⟨fun m hm => hn.misses m (misses_orElse q hm), fun v d hd => hn.found v d ?_, fun cause hd =>
    hn.aborted cause ?_⟩, fun missing => ?_⟩
  · rw [run_orElse_found hd, hd]
  · rw [run_orElse_aborted hd, hd]
  · rw [run_orElse_missing missing] at hn
    exact ⟨fun m hm => hn.misses m (List.mem_append_right _ hm), hn.found, hn.aborted⟩

/-- A sequence replies alike if each of its parts does. -/
theorem cut_bind {f : α → Rule β} {t : Text} (hc : c.rest = t ++ a)
    (hr : ∀ v d, (p.run c).outcome = .found v d → ∃ s, c.Reads s d) (same : p.run c = (p.run ⟨c.offset, t⟩).extend a)
    (hn : ((p >>= f).run c).Near (c.offset + t.length) a)
    (hf : ∀ v d, (p.run c).outcome = .found v (d.extend a) → ((f v).run (d.extend a)).Near (d.offset + d.rest.length) a →
      (f v).run (d.extend a) = ((f v).run d).extend a) :
    (p >>= f).run c = ((p >>= f).run ⟨c.offset, t⟩).extend a := by
  rw [run_bind, run_bind, same]
  refine extend_andThen fun v d hd => ?_
  have found : (p.run c).outcome = .found v (d.extend a) := by
    rw [same, Reply.extend, hd]
    rfl
  obtain ⟨s, hs⟩ := hr _ _ found
  have second := near_second found hn
  rw [cut_place hc hs] at second
  exact hf v d found second

/-! ## Single steps -/

theorem cut_spaces {t : Text} (hc : c.rest = t ++ a) (hn : (spaces.run c).Near (c.offset + t.length) a) :
    spaces.run c = (spaces.run ⟨c.offset, t⟩).extend a := by
  have short := hn.found () _ rfl
  simp only [Cursor.advance, hc] at short
  have same := takeWhile_cut (p := fun x => decide (x = ' ')) (t := t) (a := a) (by omega)
  have inside : (t.takeWhile fun x => decide (x = ' ')).length ≤ t.length := (List.takeWhile_prefix _).length_le
  simp only [Rule.spaces, hc, same, Reply.extend, Cursor.advance, List.drop_append_of_le_length inside]

/-- Too many digits abort, and only then the reply does not tell where they end. But then none of them is cut off. -/
theorem near_digits {t : Text} (hc : c.rest = t ++ a) (hn : (Rule.integer.run c).Near (c.offset + t.length) a) :
    ((lexeme .integer Lexeme.digits).run c).Near (c.offset + t.length) a := by
  unfold Rule.integer at hn
  refine ⟨fun m hm => hn.misses m (misses_bind _ hm), fun w d hd => ?_, fun cause hd => hn.aborted cause ?_⟩
  · obtain ⟨s, hs, rfl, hw⟩ := sound_digits c w d hd
    rw [run_bind_found hd] at hn
    by_cases hlong : digitLimit < s.length
    · rw [if_pos hlong] at hn
      rw [hs.2]
      refine Nat.le_of_not_lt fun hlt => ?_
      obtain ⟨x, hx, hxa⟩ := beyond_cut hc hs (by omega)
      have none := (hn.aborted _ rfl).2 x hxa
      rw [hw.2 x hx] at none
      cases none
    · rw [if_neg hlong] at hn
      exact hn.found _ d rfl
  · rw [run_bind_aborted hd]

theorem cut_integer {t : Text} (hc : c.rest = t ++ a) (hn : (Rule.integer.run c).Near (c.offset + t.length) a) :
    Rule.integer.run c = (Rule.integer.run ⟨c.offset, t⟩).extend a := by
  unfold Rule.integer
  rw [run_bind, run_bind, cut_lexeme sound_digits.advances cuts_digits hc (near_digits hc hn)]
  refine extend_andThen fun v d _ => ?_
  split <;> rfl

section Call

variable {g : BuiltIn → Unit → Rule β} {t : Text}

/-- What is behind the name of a function. -/
def behindName (g : BuiltIn → Unit → Rule β) (start : Cursor) (name : Text) : Rule β :=
  match Grammar.builtIn? name with
  | some function => Rule.literal "(" >>= g function
  | none => abort (.unknownFunction start.offset name)

/-- The parenthesis behind a name is read next, so it is not behind the cut. -/
theorem name_inside {start : Cursor} (hc : c.rest = t ++ a)
    (hn : ((functionName >>= behindName g start).run c).Near (c.offset + t.length) a)
    (hcall : ∀ name d function, (functionName.run c).outcome = .found name d → Grammar.builtIn? name = some function →
      Attentive words d ((Rule.literal "(" >>= g function).run d))
    (hcut : ∀ name d function, (functionName.run c).outcome = .found name d → Grammar.builtIn? name = some function →
      d.rest = a → ((Rule.literal "(" >>= g function).run d).Near d.offset a →
      (Rule.literal "(" >>= g function).run d = ((Rule.literal "(" >>= g function).run ⟨d.offset, []⟩).extend a) :
    ∀ r, Lexeme.functionName (t ++ a) = some r → r.2 < t.length := by
  intro r hr
  have found : (functionName.run c).outcome = .found r.1 (c.advance r.2) := by
    simp [functionName, lexeme, hc, hr]
  have second := near_second found hn
  unfold behindName at second
  cases hb : Grammar.builtIn? r.1 with
  | none =>
    rw [hb] at second
    obtain ⟨⟨count, hcount⟩, -⟩ := second.aborted _ rfl
    cases hcount
  | some function =>
    rw [hb] at second
    obtain ⟨s, hs, -⟩ := sound_functionName c r.1 _ found
    have attentive := hcall r.1 _ function found hb
    have near := near_begins attentive second fun hlt => rest_subset hc hs hlt
    simp only [Cursor.advance] at near
    refine Nat.lt_of_le_of_ne (by omega) fun hend => ?_
    have rest : (c.advance r.2).rest = a := by
      simp [Cursor.advance, hc, hend]
    have cut := hcut r.1 _ function found hb rest (by simpa [Cursor.advance, hend] using second)
    have alone : (Rule.literal "(" >>= g function).run ⟨(c.advance r.2).offset, []⟩ =
        ⟨.missing, [⟨(c.advance r.2).offset, .symbol "("⟩]⟩ := run_no_mark (by simp)
    rw [cut, alone] at attentive
    obtain ⟨u, k, hu, ho, -, habsent⟩ := attentive.misses _ (List.mem_singleton_self _)
    obtain ⟨k', hk⟩ := functionName_paren hr
    obtain rfl : u = [] := List.eq_nil_of_length_eq_zero (by simpa using ho)
    refine habsent ⟨k', ?_⟩
    rw [List.nil_append] at hu
    rw [← hu, Cursor.advance, hc, hk]
    rfl

end Call

/-! ## Composed rules -/

/-- Where a reply has not got beyond the cut, the rule replies alike without the text behind it. -/
theorem Composed.cut (h : Composed words toEnd p c) {t : Text} (hc : c.rest = t ++ a)
    (hn : (p.run c).Near (c.offset + t.length) a) : p.run c = (p.run ⟨c.offset, t⟩).extend a := by
  induction h generalizing t with
  | pure v c =>
    obtain ⟨o, r⟩ := c
    obtain rfl : r = t ++ a := hc
    rfl
  | bind hp hf ih ihf =>
    have same := ih hc (near_first hp hf hc hn)
    exact cut_bind hc hp.attentive.reads same hn fun v d found second => ihf v _ found rfl second
  | @orElse α p q c hp hq ih ih' =>
    obtain ⟨near, near'⟩ := near_orElse hn
    have same := ih hc near
    rw [run_orElse, run_orElse, same]
    cases ho : (p.run ⟨c.offset, t⟩).outcome with
    | missing =>
      have missing : (p.run c).outcome = .missing := by
        rw [same, Reply.extend, ho]
      exact extend_orTry (ih' hc (near' missing))
    | found v d => simp [Reply.orTry, Reply.extend, ho]
    | aborted cause => simp [Reply.orTry, Reply.extend, ho]
  | spaces c => exact cut_spaces hc hn
  | @literal word c hm => exact cut_lexeme (advances_literal word) (cuts_literal _) hc hn
  | letter c => exact cut_lexeme advances_letter cuts_letter hc hn
  | quoted c => exact cut_lexeme sound_quoted.advances cuts_quoted hc hn
  | real c => exact cut_lexeme sound_real.advances cuts_real hc hn
  | integer c => exact cut_integer hc hn
  | @call β g c hword hcall ih =>
    show (functionName >>= behindName g c).run c = ((functionName >>= behindName g ⟨c.offset, t⟩).run _).extend a
    have near : ((functionName >>= behindName g c).run c).Near (c.offset + t.length) a := hn
    have inside := name_inside hc near (fun name d function found hb => (hcall name d function found hb).attentive)
      fun name d function found hb rest second => ih name d function found hb rest second
    have named := lexeme_alike sound_functionName.advances hc (functionName_cut inside)
    refine cut_bind hc (fun name d found => ?_) named near fun name d found second => ?_
    · obtain ⟨s, hs, -⟩ := sound_functionName c name d found
      exact ⟨s, hs⟩
    · unfold behindName at second ⊢
      cases hb : Grammar.builtIn? name with
      | none => rfl
      | some function =>
        rw [hb] at second
        exact ih name _ function found hb rfl second
  | @checked α β p f c hp hprobe hf ih =>
    rw [run_here] at hn
    have near : (p.run c).Near (c.offset + t.length) a := by
      refine ⟨fun m hm => hn.misses m (misses_bind _ hm), fun v d hd => ?_, fun cause hd => hn.aborted cause ?_⟩
      · obtain ⟨m, hm, hle⟩ := hprobe v d hd
        exact Nat.le_trans hle (hn.misses m (misses_bind _ hm))
      · rw [run_bind_aborted hd]
    rw [run_here, run_here, run_bind, run_bind, ih hc near]
    refine extend_andThen fun v d _ => ?_
    rcases hf v with ⟨w, hw⟩ | hw
    · rw [hw, hw]
      rfl
    · rw [hw, hw]
      rfl
  | restOfLine c h =>
    obtain ⟨o, r⟩ := c
    obtain rfl : r = t ++ a := hc
    have short := hn.found () _ rfl
    simp only [Cursor.finish, Cursor.advance, List.length_append] at short
    obtain rfl : a = [] := List.eq_nil_of_length_eq_zero (by omega)
    simp [Rule.restOfLine, Reply.extend]

end Rule

end LineBasic
