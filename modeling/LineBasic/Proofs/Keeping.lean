import LineBasic.Proofs.Counting
import LineBasic.Proofs.Cutting

/-
  LineBasic.Proofs.Keeping — a word that is missed at the end of a text is missed there too when it has been begun.

  `Keeps word a p c` says so of a rule `p` at `c`: if `p` misses `word` at the end of the span, it also does where `a`
  stands behind the span, or it stops. It is about one word only, and `a` is the beginning of that word. So where the
  word is missed, what comes before it is found as it was without `a` (`Holds`), since no expression and no name goes on
  with that word, and the alternatives tried before it find nothing either. Most rules miss no word that is longer than
  one character, and where nothing is missed there is nothing to keep.

  (1) Sequence, choice and the rules that miss nothing.
  (2) `Begun word a`: all but the last character of a word of lines. What it can stand for is read off the words.
  (3) The rules of the grammar, up to lines (`Begun.keeps_statement`).
-/

namespace LineBasic

variable {α β : Type}

/-- The parse stops. -/
def Reply.Aborts (r : Reply α) : Prop := ∃ cause, r.outcome = .aborted cause

/-- The offset of the end of the span. -/
def Cursor.stop (c : Cursor) : Nat := c.offset + c.rest.length

theorem Cursor.Reads.stop {c d : Cursor} {s : Text} (h : c.Reads s d) : c.stop = d.stop := h.finish

theorem Cursor.skip_extend {a : Text} (ha : Stops isSpace a) (c : Cursor) : (c.extend a).skip = c.skip.extend a := by
  obtain ⟨s, k, hc, hs, hk⟩ := exists_run isSpace c.rest
  have stops : Stops isSpace (k ++ a) := by
    cases k with
    | nil => exact ha
    | cons x k => simpa using hk
  have text : (c.extend a).rest = s ++ (k ++ a) := by
    show c.rest ++ a = _
    rw [hc, List.append_assoc]
  unfold Cursor.skip Cursor.ahead
  rw [text, takeWhile_run hs stops, dropWhile_run hs stops, hc, takeWhile_run hs hk, dropWhile_run hs hk]
  rfl

namespace Rule

variable {p q : Rule α} {f : α → Rule β} {c d : Cursor} {v : α} {a : Text}

theorem aborts_bind (h : (p.run c).Aborts) : ((p >>= f).run c).Aborts := by
  obtain ⟨cause, hcause⟩ := h
  exact ⟨cause, by rw [run_bind_aborted hcause]⟩

theorem aborts_orElse (h : (p.run c).Aborts) : ((p <|> q).run c).Aborts := by
  obtain ⟨cause, hcause⟩ := h
  exact ⟨cause, by rw [run_orElse_aborted hcause, hcause]⟩

/-! ## (1) Rules that keep a miss -/

variable {word : String}

/-- The rule misses `word` at the end of the span. -/
def Lacks (word : String) (p : Rule α) (c : Cursor) : Prop := ⟨c.stop, .symbol word⟩ ∈ (p.run c).misses

/-- A word that is missed at the end of the span is missed there too where `a` stands behind the span, if the parse does
    not stop. -/
def Keeps (word : String) (a : Text) (p : Rule α) (c : Cursor) : Prop :=
  Lacks word p c → ⟨c.stop, .symbol word⟩ ∈ (p.run (c.extend a)).misses ∨ (p.run (c.extend a)).Aborts

/-- What is found is found too where `a` stands behind the span, if the parse does not stop. -/
def Holds (a : Text) (p : Rule α) (c : Cursor) (v : α) (d : Cursor) : Prop :=
  (p.run (c.extend a)).outcome = .found v (d.extend a) ∨ (p.run (c.extend a)).Aborts

theorem lacks_bind (ha : Advances p) (h : Lacks word (p >>= f) c) : Lacks word p c ∨
    ∃ v d, (p.run c).outcome = .found v d ∧ Lacks word (f v) d := by
  unfold Lacks at h
  cases ho : (p.run c).outcome with
  | found v d =>
    rw [run_bind_found ho] at h
    rcases List.mem_append.mp h with h | h
    · exact .inl h
    · obtain ⟨s, hs⟩ := ha c v d ho
      rw [hs.stop] at h
      exact .inr ⟨v, d, rfl, h⟩
  | missing =>
    rw [run_bind_missing ho] at h
    exact .inl h
  | aborted cause =>
    rw [run_bind_aborted ho] at h
    exact .inl h

theorem lacks_orElse (h : Lacks word (p <|> q) c) :
    Lacks word p c ∨ (p.run c).outcome = .missing ∧ Lacks word q c := by
  unfold Lacks at h
  cases ho : (p.run c).outcome with
  | missing =>
    rw [run_orElse_missing ho] at h
    rcases List.mem_append.mp h with h | h
    · exact .inl h
    · exact .inr ⟨rfl, h⟩
  | found v d =>
    rw [run_orElse_found ho] at h
    exact .inl h
  | aborted cause =>
    rw [run_orElse_aborted ho] at h
    exact .inl h

theorem lacks_skip {g : Unit → Rule β} : Lacks word (spaces >>= g) c ↔ Lacks word (g ()) c.skip := by
  obtain ⟨s, -, hs⟩ := reads_skip c
  unfold Lacks
  rw [run_skip, hs.stop]

theorem not_lacks_pure (v : α) (c : Cursor) : ¬ Lacks word (pure v) c := by simp [Lacks]

/-- Only the words of a rule are missed. -/
theorem not_lacks_composed (words : List String) (toEnd : Prop) (h : Composed words toEnd p c) (hw : word ∉ words) :
    ¬ Lacks word p c := by
  intro hm
  obtain ⟨_, _, _, _, absent⟩ := h.attentive.misses _ hm
  exact hw absent.1

theorem Keeps.of_not (h : ¬ Lacks word p c) : Keeps word a p c := fun hm => absurd hm h

theorem Keeps.bind (ha : Advances p) (hp : Keeps word a p c) (hf : ∀ v d, (p.run c).outcome = .found v d →
    Lacks word (f v) d → Holds a p c v d ∧ Keeps word a (f v) d) : Keeps word a (p >>= f) c := by
  intro hm
  rcases lacks_bind ha hm with hm | ⟨v, d, hd, hm⟩
  · rcases hp hm with hm | hm
    · exact .inl (misses_bind f hm)
    · exact .inr (aborts_bind hm)
  · obtain ⟨holds, keeps⟩ := hf v d hd hm
    obtain ⟨s, hs⟩ := ha c v d hd
    rcases holds with found | aborts
    · rcases keeps hm with hm | ⟨cause, hm⟩
      · left
        rw [run_bind_found found, hs.stop]
        exact List.mem_append_right _ hm
      · right
        exact ⟨cause, by rw [run_bind_found found]; exact hm⟩
    · exact .inr (aborts_bind aborts)

theorem Keeps.orElse (hp : Keeps word a p c) (hq : (p.run c).outcome = .missing → Lacks word q c →
    ((p.run (c.extend a)).outcome = .missing ∨ (p.run (c.extend a)).Aborts) ∧ Keeps word a q c) :
    Keeps word a (p <|> q) c := by
  intro hm
  rcases lacks_orElse hm with hm | ⟨hd, hm⟩
  · rcases hp hm with hm | hm
    · exact .inl (misses_orElse q hm)
    · exact .inr (aborts_orElse hm)
  · obtain ⟨stays, keeps⟩ := hq hd hm
    rcases stays with missing | aborts
    · rcases keeps hm with hm | ⟨cause, hm⟩
      · left
        rw [run_orElse_missing missing]
        exact List.mem_append_right _ hm
      · right
        exact ⟨cause, by rw [run_orElse_missing missing]; exact hm⟩
    · exact .inr (aborts_orElse aborts)

/-- Where nothing is missed behind what is found, only what comes first counts. -/
theorem Keeps.bind_quiet (ha : Advances p) (hp : Keeps word a p c) (hf : ∀ v d, ¬ Lacks word (f v) d) :
    Keeps word a (p >>= f) c :=
  hp.bind ha fun v d _ h => absurd h (hf v d)

theorem Keeps.orElse_quiet (hp : Keeps word a p c) (hq : ¬ Lacks word q c) : Keeps word a (p <|> q) c :=
  hp.orElse fun _ h => absurd h hq

/-- A rule that only asks for the offset of its beginning. -/
theorem keeps_here {f : Cursor → Rule β} (hf : f (c.extend a) = f c) (h : Keeps word a (f c) c) :
    Keeps word a (here >>= f) c := by
  intro hm
  unfold Reply.Aborts
  rw [run_here, hf]
  exact h hm

/-- What is read from a text that spells it is read too where `a` stands behind. -/
theorem Sound.holds {L : Text → α → Prop} (hs : Sound p L) (hf : (p.run c).outcome = .found v d)
    (ht : ∀ s, L s v → Takes True p s v (d.rest ++ a)) : Holds a p c v d := by
  obtain ⟨s, ⟨hrest, hoffset⟩, hL⟩ := hs c v d hf
  have text : c.extend a = ⟨c.offset, s ++ (d.rest ++ a)⟩ := by
    rw [Cursor.extend, hrest, List.append_assoc]
  unfold Holds
  rw [text]
  rcases ht s hL c.offset with found | ⟨-, aborts⟩
  · left
    rw [found, Cursor.extend, hoffset]
  · exact .inr aborts

theorem lacks_firstOf {ps : List (Rule α)} (h : Lacks word (firstOf ps) c) :
    ∃ before p after, ps = before ++ p :: after ∧ Lacks word p c := by
  induction ps with
  | nil => exact absurd h (by simp [Lacks, Rule.firstOf, fail])
  | cons p ps ih =>
    rcases lacks_orElse h with h | ⟨-, h⟩
    · exact ⟨[], p, ps, rfl, h⟩
    · obtain ⟨before, q, after, rfl, hq⟩ := ih h
      exact ⟨p :: before, q, after, rfl, hq⟩

theorem Keeps.firstOf {ps : List (Rule α)} (hk : ∀ p ∈ ps, Keeps word a p c)
    (hm : ∀ before p after, ps = before ++ p :: after → Lacks word p c →
      ∀ q ∈ before, (q.run (c.extend a)).outcome = .missing) : Keeps word a (firstOf ps) c := by
  induction ps with
  | nil => exact .of_not (by simp [Lacks, Rule.firstOf, fail])
  | cons p ps ih =>
    refine Keeps.orElse (hk p List.mem_cons_self) fun _ h => ⟨.inl ?_, ih ?_ ?_⟩
    · obtain ⟨before, q, after, hps, hq⟩ := lacks_firstOf h
      exact hm (p :: before) q after (by rw [hps]; rfl) hq p List.mem_cons_self
    · exact fun q hq => hk q (List.mem_cons_of_mem _ hq)
    · intro before q after hps hq r hr
      exact hm (p :: before) q after (by rw [hps]; rfl) hq r (List.mem_cons_of_mem _ hr)

end Rule

namespace Grammar

open Rule Spelling

/-- What a single statement finds before a colon it finds too where `a` stands behind the line. -/
theorem holds_single {a : Text} {c e : Cursor} {first : Statement} {u : Text}
    (h : ((firstOf statementRules).run c).outcome = .found first e) (hu : e.skip.rest = ':' :: u) :
    Holds a (firstOf statementRules) c first e := by
  obtain ⟨t, text, -, same⟩ := single_before_colon h hu
  have here : c = ⟨c.offset, t ++ ':' :: u⟩ := by rw [← text]
  have there : c.extend a = ⟨c.offset, t ++ ':' :: (u ++ a)⟩ := by
    rw [Cursor.extend, text, List.append_assoc, List.cons_append]
  rw [here, same] at h
  left
  obtain ⟨d, hd, rfl⟩ := Reply.found_extend h
  rw [there, same, Reply.outcome_extend hd]
  simp [Cursor.extend]

/-! ## (2) A word that has been begun -/

/-- The literal texts of one character. -/
def marks : List String := ["(", ")", "-", ",", "*", "/", "+", ";", "=", "<", ">", ":"]

/-- All but the last of the characters of a word. -/
structure Begun (word : String) (a : Text) : Prop where
  mem : word ∈ lineWords
  last : ∃ x, word.toList = a ++ [x]
  begun : a ≠ []

section Begun

variable {word kw : String} {a t : Text} {c : Cursor} {g : Unit → Rule β}

/-- A literal text that is missed at the end is the word. -/
theorem lacks_literal (hm : Lacks word (literal kw >>= g) c) :
    (∃ k, c.rest = kw.toList ++ k) ∨ c.rest = [] ∧ kw = word := by
  by_cases hp : kw.toList <+: c.rest
  · obtain ⟨k, hk⟩ := hp
    exact .inl ⟨k, hk.symm⟩
  · right
    unfold Lacks at hm
    rw [run_no_mark hp] at hm
    have same := List.mem_singleton.mp hm
    simp only [Miss.mk.injEq, Wanted.symbol.injEq] at same
    refine ⟨List.eq_nil_of_length_eq_zero ?_, same.2.symm⟩
    have := same.1
    unfold Cursor.stop at this
    omega

variable (hb : Begun word a)

include hb

theorem Begun.head {x : Char} (h : word.toList = x :: t) : ∃ k, a = x :: k := by
  obtain ⟨y, hy⟩ := hb.last
  obtain ⟨z, k, rfl⟩ := List.exists_cons_of_ne_nil hb.begun
  rw [h] at hy
  cases hy
  exact ⟨k, rfl⟩

theorem Begun.pair {y z : Char} (h : word.toList = [y, z]) : a = [y] := by
  obtain ⟨k, rfl⟩ := hb.head h
  obtain ⟨x, hx⟩ := hb.last
  have := congrArg List.length hx
  rw [h] at this
  simp only [List.length_cons, List.length_append, List.length_nil] at this
  rw [List.eq_nil_of_length_eq_zero (l := k) (by omega)]

theorem Begun.not_begins : ¬ word.toList <+: a := by
  obtain ⟨x, hx⟩ := hb.last
  intro h
  have := h.length_le
  rw [hx, List.length_append, List.length_singleton] at this
  omega

theorem Begun.not_mark : word ∉ marks := by
  intro h
  obtain ⟨x, hx⟩ := hb.last
  have single : ∀ mark ∈ marks, mark.toList.length = 1 := by decide
  have := single word h
  have := List.length_pos_iff.mpr hb.begun
  rw [hx, List.length_append, List.length_singleton] at *
  omega

theorem Begun.stops : Stops isSpace a := by
  have heads : ∀ word ∈ lineWords, word.toList.head? ≠ some ' ' := by decide
  obtain ⟨x, hx⟩ := hb.last
  obtain ⟨y, k, rfl⟩ := List.exists_cons_of_ne_nil hb.begun
  have := heads word hb.mem
  rw [hx] at this
  simpa [isSpace] using this

theorem Begun.keeps_skip (h : Keeps word a (g ()) c.skip) : Keeps word a (spaces >>= g) c := by
  obtain ⟨s, -, hs⟩ := reads_skip c
  intro hm
  rw [run_skip, Cursor.skip_extend hb.stops, hs.stop]
  exact h (lacks_skip.mp hm)

theorem Begun.keeps_literal (h : ∀ k, c.rest = kw.toList ++ k → Keeps word a (g ()) ⟨c.offset + kw.toList.length, k⟩) :
    Keeps word a (literal kw >>= g) c := by
  intro hm
  rcases lacks_literal hm with ⟨k, hk⟩ | ⟨hend, rfl⟩
  · have text : (c.extend a).rest = kw.toList ++ (k ++ a) := by
      show c.rest ++ a = _
      rw [hk, List.append_assoc]
    have mark : c.Reads kw.toList ⟨c.offset + kw.toList.length, k⟩ := ⟨hk, rfl⟩
    unfold Lacks at hm
    rw [run_mark hk, mark.stop] at hm
    rw [run_mark text, mark.stop]
    exact h k hk hm
  · left
    have text : (c.extend a).rest = a := by
      show c.rest ++ a = a
      rw [hend, List.nil_append]
    have place : c.stop = c.offset := by simp [Cursor.stop, hend]
    rw [run_no_mark (by rw [text]; exact hb.not_begins), place]
    exact List.mem_singleton_self _

theorem Begun.keeps_opening (h : ∀ k, c.rest = kw.toList ++ k → Keeps word a (g ()) (c.past kw k)) :
    Keeps word a (literal kw >>= fun _ => spaces >>= g) c :=
  hb.keeps_literal fun k hk => hb.keeps_skip (h k hk)

theorem Begun.keeps_keyword (h : ∀ k, c.rest = kw.toList ++ k → Keeps word a (g ()) (c.past kw k)) :
    Keeps word a (keyword kw >>= g) c := by
  rw [keyword_bind]
  exact hb.keeps_opening h

/-- What stands where a word is missed at the end, or has been read. -/
theorem Begun.ahead (kw : String) {x : Char} (hkw : kw.toList = x :: t) (hm : Lacks word (literal kw >>= g) c) :
    ∃ k, c.rest ++ a = x :: k := by
  rcases lacks_literal hm with ⟨k, hk⟩ | ⟨hend, rfl⟩
  · rw [hk, hkw]
    exact ⟨_, rfl⟩
  · rw [hend]
    exact hb.head hkw

theorem Begun.before (kw : String) {x : Char} (hkw : kw.toList = x :: t)
    (hm : Lacks word (spaces >>= fun _ => literal kw >>= g) c) : ∃ s k, Spaces s ∧ c.rest ++ a = s ++ x :: k := by
  obtain ⟨s, hspaces, hs⟩ := reads_skip c
  obtain ⟨k, hk⟩ := hb.ahead kw hkw (lacks_skip.mp hm)
  refine ⟨s, k, hspaces, ?_⟩
  rw [hs.1, List.append_assoc, hk]

/-- A mark is no word, so it is there. -/
theorem Begun.mark_ahead (kw : String) (hkw : kw ∈ marks) (hm : Lacks word (literal kw >>= g) c) :
    ∃ k, c.rest = kw.toList ++ k := by
  rcases lacks_literal hm with h | ⟨-, rfl⟩
  · exact h
  · exact absurd hkw hb.not_mark

/-! ## (3) Conditions, strings, statements -/

theorem Begun.not_lacks {p : Rule α} (h : ComposedBelow marks False (c.rest.length + 1) p) : ¬ Lacks word p c :=
  not_lacks_composed marks False (h c (Nat.lt_succ_self _)) hb.not_mark

theorem Begun.not_lacks_expression : ¬ Lacks word expression c :=
  hb.not_lacks (composed_expression (by decide) _)

/-- A comparison operator of two characters is missed at the end behind its first one. -/
theorem Begun.operator_at_end (hend : c.rest = []) (hm : Lacks word comparisonOperator c) :
    (a = ['<'] ∨ a = ['>']) ∧ ⟨c.stop, .symbol word⟩ ∈ (comparisonOperator.run (c.extend a)).misses := by
  obtain ⟨o, r⟩ := c
  obtain rfl : r = [] := hend
  have all : (comparisonOperator.run ⟨o, []⟩).misses = [⟨o, .symbol "<>"⟩, ⟨o, .symbol "<="⟩, ⟨o, .symbol ">="⟩,
    ⟨o, .symbol "="⟩, ⟨o, .symbol "<"⟩, ⟨o, .symbol ">"⟩] := rfl
  have less : (comparisonOperator.run ⟨o, ['<']⟩).misses = [⟨o, .symbol "<>"⟩, ⟨o, .symbol "<="⟩, ⟨o, .symbol ">="⟩,
    ⟨o, .symbol "="⟩] := rfl
  have greater : (comparisonOperator.run ⟨o, ['>']⟩).misses = [⟨o, .symbol "<>"⟩, ⟨o, .symbol "<="⟩, ⟨o, .symbol ">="⟩,
    ⟨o, .symbol "="⟩, ⟨o, .symbol "<"⟩] := rfl
  have mark := hb.not_mark
  unfold Lacks at hm
  rw [all] at hm
  simp only [List.mem_cons, Miss.mk.injEq, Wanted.symbol.injEq, List.not_mem_nil, or_false] at hm
  rcases hm with ⟨-, rfl⟩ | ⟨-, rfl⟩ | ⟨-, rfl⟩ | ⟨-, rfl⟩ | ⟨-, rfl⟩ | ⟨-, rfl⟩
  · obtain rfl := hb.pair (y := '<') rfl
    exact ⟨.inl rfl, less ▸ by simp [Cursor.stop]⟩
  · obtain rfl := hb.pair (y := '<') rfl
    exact ⟨.inl rfl, less ▸ by simp [Cursor.stop]⟩
  · obtain rfl := hb.pair (y := '>') rfl
    exact ⟨.inr rfl, greater ▸ by simp [Cursor.stop]⟩
  · exact absurd (by decide) mark
  · exact absurd (by decide) mark
  · exact absurd (by decide) mark

theorem Begun.keeps_comparison (c : Cursor) : Keeps word a comparison c := by
  refine Keeps.bind advances_expression (.of_not hb.not_lacks_expression) fun left e he hm => ?_
  have right (op : Comparison) (d : Cursor) : ¬ Lacks word (do
      spaces
      let right ← expression
      pure (Condition.compare op left right)) d :=
    hb.not_lacks (.bind .spaces advances_spaces fun _ =>
      .bind (composed_expression (by decide) _) advances_expression fun _ => .pure _)
  obtain ⟨s, hspaces, hs⟩ := reads_skip e
  -- The operator is at the end, as the second expression misses no word.
  have operator : Lacks word comparisonOperator e.skip := by
    rcases lacks_bind sound_comparisonOperator.advances (lacks_skip.mp hm) with h | ⟨op, d, -, h⟩
    · exact h
    · exact absurd h (right op d)
  have hend : e.skip.rest = [] := by
    have near : e.skip.stop ≤ e.skip.offset := within_comparisonOperator (Nat.le_refl _) _ operator
    unfold Cursor.stop at near
    exact List.eq_nil_of_length_eq_zero (by omega)
  obtain ⟨first, kept⟩ := hb.operator_at_end hend operator
  have ends : Ends 4 (e.rest ++ a) := by
    rw [hs.1, hend, List.append_nil]
    rcases first with rfl | rfl
    · exact ends_behind hspaces (by decide) (by decide) (by decide)
    · exact ends_behind hspaces (by decide) (by decide) (by decide)
  refine ⟨sound_expr.holds he fun s hs => takes_expr hs ends, hb.keeps_skip fun _ => .inl ?_⟩
  exact misses_bind _ kept

section Joined

variable {op : Connective} {left : Condition} {right : Rule Condition}

theorem Begun.keeps_joined (hr : Advances right)
    (h : ∀ k, c.skip.rest = kw.toList ++ k → Keeps word a right (c.skip.past kw k)) : Keeps word a (joined op kw left right) c :=
  hb.keeps_skip (hb.keeps_opening fun k hk => (h k hk).bind_quiet hr fun _ _ => not_lacks_pure _ _)

/-- A comparison is read as such where a connective behind it is begun. -/
theorem Begun.holds_comparison {d : Cursor} {v : Condition} (op : Connective)
    (hd : (comparison.run c).outcome = .found v d) (hm : Lacks word (joined op op.keyword left right) d) : Holds a comparison c v d := by
  refine sound_compared.holds hd fun s hs => takes_compared hs ?_
  cases op with
  | and =>
    obtain ⟨s, k, hspaces, htext⟩ := hb.before "AND" (x := 'A') rfl hm
    rw [htext]
    exact ends_behind hspaces (by decide) (by decide) (by decide)
  | or =>
    obtain ⟨s, k, hspaces, htext⟩ := hb.before "OR" (x := 'O') rfl hm
    rw [htext]
    exact ends_behind hspaces (by decide) (by decide) (by decide)

end Joined

theorem Begun.keeps_conjunction (c : Cursor) : Keeps word a conjunction c := by
  induction hlen : c.rest.length using Nat.strongRecOn generalizing c with
  | ind length ih =>
  rw [conjunction_eq]
  refine Keeps.bind advances_comparison (hb.keeps_comparison c) fun left e he hm => ?_
  have shorter := advances_comparison.length_le he
  have joins := (lacks_orElse hm).resolve_right fun h => not_lacks_pure _ _ h.2
  refine ⟨hb.holds_comparison .and he joins, Keeps.orElse_quiet ?_ (not_lacks_pure _ _)⟩
  refine hb.keeps_joined advances_conjunction fun k hk => ih _ ?_ _ rfl
  have := Nat.lt_of_lt_of_le (Cursor.past_fewer hk (by simp)) e.skip_fewer
  omega

theorem Begun.keeps_condition (c : Cursor) : Keeps word a condition c := by
  induction hlen : c.rest.length using Nat.strongRecOn generalizing c with
  | ind length ih =>
  rw [condition_eq]
  refine Keeps.bind advances_comparison (hb.keeps_comparison c) fun left e he hm => ?_
  have shorter := advances_comparison.length_le he
  have other (h : Lacks word (joined .or "OR" left condition <|> pure left) e) :
      Lacks word (joined .or "OR" left condition) e :=
    (lacks_orElse h).resolve_right fun h => not_lacks_pure _ _ h.2
  refine ⟨?_, Keeps.orElse ?_ fun _ h => ⟨.inl ?_, Keeps.orElse_quiet ?_ (not_lacks_pure _ _)⟩⟩
  · rcases lacks_orElse hm with h | ⟨-, h⟩
    · exact hb.holds_comparison .and he h
    · exact hb.holds_comparison .or he (other h)
  · exact hb.keeps_joined advances_conjunction fun k _ => hb.keeps_conjunction _
  · -- The OR is there or begun, so there is no AND.
    obtain ⟨s, k, hspaces, htext⟩ := hb.before "OR" (x := 'O') rfl (other h)
    have skips : Skips False (joined .and "AND" left conjunction) (e.rest ++ a) := by
      rw [htext]
      exact skips_joined hspaces (by simp [isSpace]) (by simp [List.isPrefixOf])
    exact (skips e.offset).resolve_right fun h => h.1
  · refine hb.keeps_joined advances_condition fun k hk => ih _ ?_ _ rfl
    have := Nat.lt_of_lt_of_le (Cursor.past_fewer hk (by simp)) e.skip_fewer
    omega

theorem Begun.keeps_tab (c : Cursor) : Keeps word a tab c := by
  unfold tab
  refine hb.keeps_opening fun k _ => .of_not (hb.not_lacks ?_)
  refine .bind .integer advances_integer fun n => .bind .spaces advances_spaces fun _ => ?_
  exact .bind (.literal (by decide)) (advances_literal _) fun _ => .pure _

theorem Begun.keeps_fragment (c : Cursor) : Keeps word a fragment c := by
  have noText : ¬ Lacks word (do let text ← quoted; pure (StringExpression.literal text)) c :=
    not_lacks_composed [] False (.bind (.quoted c) fun _ d _ => .pure _ d) (List.not_mem_nil)
  have noNumber : ¬ Lacks word (do let value ← expression; pure (StringExpression.number value)) c :=
    hb.not_lacks ((composed_expression (by decide) _).bind advances_expression fun _ => .pure _)
  rw [fragment_eq]
  refine Keeps.orElse (.of_not noText) fun _ hm => ⟨.inl ?_, (hb.keeps_tab c).orElse_quiet noNumber⟩
  have begun := (lacks_orElse hm).resolve_right fun h => noNumber h.2
  obtain ⟨k, hk⟩ := hb.ahead "TAB(" (x := 'T') rfl begun
  have skips : Skips False quoted (c.rest ++ a) := by
    rw [hk]
    exact skips_quoted (by simp)
  exact (skips.bind c.offset).resolve_right fun h => h.1

theorem Begun.keeps_stringBody (c : Cursor) : Keeps word a stringBody c := by
  induction hlen : c.rest.length using Nat.strongRecOn generalizing c with
  | ind length ih =>
  rw [stringBody_eq_behind]
  refine Keeps.bind advances_fragment (hb.keeps_fragment c) fun left e he hm => ?_
  have shorter := advances_fragment.length_le he
  have behind (kw : String) (join : StringExpression → StringExpression) (hne : kw.toList ≠ []) :
      Keeps word a (bodyBehind kw join) e := by
    refine hb.keeps_opening fun k hk => Keeps.bind_quiet advances_stringBody (ih _ ?_ _ rfl) fun _ _ => not_lacks_pure _ _
    have := Cursor.past_fewer hk hne
    omega
  have other (h : Lacks word (bodyBehind "," (.concatTab left) <|> pure left) e) : ∃ k, e.rest = ",".toList ++ k :=
    hb.mark_ahead "," (by decide) ((lacks_orElse h).resolve_right fun h => not_lacks_pure _ _ h.2)
  refine ⟨sound_part.holds he fun s hs => (takes_part hs ?_).mono fun _ => trivial, Keeps.orElse (behind ";" _ (by simp)) ?_⟩
  · rcases lacks_orElse hm with h | ⟨-, h⟩
    · obtain ⟨k, hk⟩ := hb.mark_ahead ";" (by decide) h
      rw [hk]
      exact free_semicolon _
    · obtain ⟨k, hk⟩ := other h
      rw [hk]
      exact free_comma _
  · intro _ h
    obtain ⟨k, hk⟩ := other h
    refine ⟨.inl ?_, (behind "," _ (by simp)).orElse_quiet (not_lacks_pure _ _)⟩
    have noSemicolon : Declines (literal ";") (e.extend a) := by
      refine declines_literal_char (x := ';') rfl ?_
      show (e.rest ++ a).head? ≠ _
      rw [hk]
      simp
    exact noSemicolon.bind.missing

theorem Begun.keeps_stringExpression (c : Cursor) : Keeps word a stringExpression c := by
  refine Keeps.bind_quiet advances_stringBody (hb.keeps_stringBody c) fun body d => hb.not_lacks ?_
  refine .orElse (.bind (.literal (by decide)) (advances_literal _) fun _ => .pure _) (.orElse ?_ (.pure _))
  exact .bind (.literal (by decide)) (advances_literal _) fun _ => .pure _

theorem Begun.keeps_letter {f : Char → Rule β} (h : ∀ name d, Keeps word a (f name) d) : Keeps word a (letter >>= f) c := by
  refine Keeps.bind advances_letter (.of_not (hb.not_lacks .letter)) fun name d hd _ => ⟨?_, h name d⟩
  exact sound_name.holds hd fun s hs => takes_name hs

/-- The clause for the step of a loop. -/
theorem Begun.keeps_step (c : Cursor) : Keeps word a (succeeds (do spaces; keyword "STEP")) c := by
  have clause : Keeps word a (do spaces; keyword "STEP") c :=
    hb.keeps_skip (hb.keeps_literal fun k _ => .of_not (hb.not_lacks .spaces))
  have found := clause.bind_quiet (sound_separator "STEP").advances (f := fun _ => pure true) fun _ _ => not_lacks_pure _ _
  exact found.orElse_quiet (not_lacks_pure _ _)

theorem Begun.not_lacks_stepped (given : Bool) (d : Cursor) :
    ¬ Lacks word (if given then expression else pure (Expression.integer 1)) d := by
  cases given with
  | true => exact hb.not_lacks_expression
  | false => exact not_lacks_pure _ _

/-- A step that is missed at the end is missed behind the expression before it. -/
theorem Begun.before_step (h : Lacks word stepClause c) : ∃ s k, Spaces s ∧ c.rest ++ a = s ++ 'S' :: k := by
  have clause : Lacks word (do spaces; keyword "STEP") c := by
    rcases lacks_bind (sound_separator "STEP").succeeds.advances h with h | ⟨given, d, -, h⟩
    · have := (lacks_orElse h).resolve_right fun h => not_lacks_pure _ _ h.2
      exact (lacks_bind (sound_separator "STEP").advances this).resolve_right fun ⟨_, d, _, h⟩ => not_lacks_pure _ d h
    · exact absurd h (hb.not_lacks_stepped given d)
  exact hb.before "STEP" (x := 'S') rfl clause

/-- Behind the keyword, an assignment misses no word. -/
theorem Begun.letting (hm : Lacks word assignStatement c) : Lacks word (keyword "LET" >>= fun _ => pure true) c := by
  have advances : Advances (succeeds (keyword "LET")) :=
    ((advances_keyword _).bind fun _ => advances_pure true).orElse (advances_pure false)
  rcases lacks_bind advances hm with h | ⟨given, d, -, h⟩
  · exact (lacks_orElse h).resolve_right fun h => not_lacks_pure _ _ h.2
  · refine absurd h (hb.not_lacks ?_)
    refine (composed_target (by decide)).bind advances_target fun target => .bind .spaces advances_spaces fun _ => ?_
    refine .bind (.literal (by decide)) (advances_literal _) fun _ => .bind .spaces advances_spaces fun _ => ?_
    exact (composed_expression (by decide) _).bind advances_expression fun _ => .pure _

theorem Begun.keeps_assignStatement (c : Cursor) : Keeps word a assignStatement c := by
  intro hm
  have keeps : Keeps word a (keyword "LET" >>= fun _ => pure true) c :=
    hb.keeps_keyword fun k _ => .of_not (not_lacks_pure _ _)
  rcases keeps (hb.letting hm) with h | h
  · exact .inl (misses_bind _ (misses_orElse _ h))
  · exact .inr (aborts_bind (aborts_orElse h))

theorem Begun.keeps_ifStatement (c : Cursor) : Keeps word a ifStatement c := by
  refine hb.keeps_keyword fun k _ => Keeps.bind advances_condition (hb.keeps_condition _) fun test d hd hm => ⟨?_, ?_⟩
  · rw [keyword_bind] at hm
    obtain ⟨s, k, hspaces, htext⟩ := hb.before "THEN" (x := 'T') rfl hm
    refine sound_tested.holds hd fun s hs => takes_tested hs ?_
    rw [htext]
    exact halts_behind hspaces (by decide) (by decide) (by decide) (by decide)
  · refine hb.keeps_skip (hb.keeps_keyword fun k _ => .of_not (hb.not_lacks ?_))
    exact .bind .integer advances_integer fun _ => .pure _

theorem Begun.keeps_forStatement (c : Cursor) : Keeps word a forStatement c := by
  refine hb.keeps_keyword fun k _ => hb.keeps_letter fun counter d => hb.keeps_skip (hb.keeps_opening fun k _ => ?_)
  refine Keeps.bind advances_expression (.of_not hb.not_lacks_expression) fun start d hd hm => ⟨?_, ?_⟩
  · rw [keyword_bind] at hm
    obtain ⟨s, k, hspaces, htext⟩ := hb.before "TO" (x := 'T') rfl hm
    refine sound_expr.holds hd fun s hs => takes_expr hs ?_
    rw [htext]
    exact ends_behind hspaces (by decide) (by decide) (by decide)
  refine hb.keeps_skip (hb.keeps_keyword fun k _ => ?_)
  refine Keeps.bind advances_expression (.of_not hb.not_lacks_expression) fun stop d hd hm => ⟨?_, ?_⟩
  · have step := (lacks_bind advances_stepClause hm).resolve_right fun ⟨_, d, _, h⟩ => not_lacks_pure _ d h
    obtain ⟨s, k, hspaces, htext⟩ := hb.before_step step
    refine sound_expr.holds hd fun s hs => takes_expr hs ?_
    rw [htext]
    exact ends_behind hspaces (by decide) (by decide) (by decide)
  · refine Keeps.bind_quiet advances_stepClause ?_ fun _ _ => not_lacks_pure _ _
    exact (hb.keeps_step d).bind_quiet (sound_separator "STEP").succeeds.advances hb.not_lacks_stepped

theorem Begun.keeps_inputStatement (c : Cursor) : Keeps word a inputStatement c := by
  refine hb.keeps_keyword fun k _ => keeps_here rfl ?_
  refine Keeps.bind_quiet advances_stringExpression (hb.keeps_stringExpression _) fun operand d => ?_
  cases inputOperand? operand with
  | some read => exact not_lacks_pure _ d
  | none => simp [Lacks, want]

theorem Begun.keeps_onGotoStatement (c : Cursor) : Keeps word a onGotoStatement c := by
  refine hb.keeps_keyword fun k _ => hb.keeps_letter fun selector d => hb.keeps_skip (hb.keeps_keyword fun k _ => ?_)
  refine .of_not (hb.not_lacks (.bind (.separated (by decide) (by simp) advances_integer .integer) ?_ fun _ => .pure _))
  exact advances_separated (by simp) advances_integer

theorem Begun.keeps_statementRules (c : Cursor) : ∀ p ∈ statementRules, Keeps word a p c := by
  intro p hp
  have number (kw : String) (f : Int → Statement) : Keeps word a (do keyword kw; let n ← integer; pure (f n)) c :=
    hb.keeps_keyword fun k _ => .of_not (hb.not_lacks (.bind .integer advances_integer fun _ => .pure _))
  have alone (kw : String) (s : Statement) : Keeps word a (do literal kw; pure s) c :=
    hb.keeps_literal fun k _ => .of_not (not_lacks_pure _ _)
  simp only [statementRules, List.mem_cons, List.not_mem_nil, or_false] at hp
  rcases hp with rfl | rfl | rfl | rfl | rfl | rfl | rfl | rfl | rfl | rfl | rfl | rfl | rfl
  · exact hb.keeps_literal fun k _ => .of_not (by simp [Lacks, restOfLine, Reply.andThen, Reply.after])
  · refine hb.keeps_keyword fun k _ => Keeps.bind_quiet ?_ ?_ fun _ _ => not_lacks_pure _ _
    · exact advances_stringExpression.orElse (advances_pure _)
    · exact (hb.keeps_stringExpression _).orElse_quiet (not_lacks_pure _ _)
  · exact hb.keeps_assignStatement c
  · exact alone _ _
  · exact number _ _
  · exact number _ _
  · exact hb.keeps_ifStatement c
  · exact hb.keeps_forStatement c
  · refine hb.keeps_keyword fun k _ => .of_not (hb.not_lacks ?_)
    refine .bind (.separated (by decide) (by simp) advances_letter .letter) ?_ fun _ => .pure _
    exact advances_separated (by simp) advances_letter
  · exact hb.keeps_inputStatement c
  · exact alone _ _
  · refine hb.keeps_keyword fun k _ => .of_not (hb.not_lacks ?_)
    refine .bind (.separated (by decide) (by simp) advances_arrayReference ?_) ?_ fun _ => .pure _
    · exact composed_arrayReference (by decide)
    exact advances_separated (by simp) advances_arrayReference
  · exact hb.keeps_onGotoStatement c

/-- A rule that misses a word at the end has read its keyword, or that word is its keyword. -/
theorem Begun.rule_begun {K : String} {p : Rule Statement} (h : (K, p) ∈ keywordRules) (hm : Lacks word p c) :
    (∃ k, c.rest = K.toList ++ k) ∨ c.rest = [] ∧ K = word := by
  simp only [keywordRules, List.mem_cons, Prod.mk.injEq, List.not_mem_nil, or_false] at h
  rcases h with ⟨rfl, rfl⟩ | ⟨rfl, rfl⟩ | ⟨rfl, rfl⟩ | ⟨rfl, rfl⟩ | ⟨rfl, rfl⟩ | ⟨rfl, rfl⟩ | ⟨rfl, rfl⟩ | ⟨rfl, rfl⟩ |
    ⟨rfl, rfl⟩ | ⟨rfl, rfl⟩ | ⟨rfl, rfl⟩ | ⟨rfl, rfl⟩ | ⟨rfl, rfl⟩
  case inr.inr.inl => exact lacks_literal (by rw [← keyword_bind]; exact hb.letting hm)
  all_goals first
    | exact lacks_literal hm
    | exact lacks_literal (by rw [← keyword_bind]; exact hm)

/-- The rules before the one that misses a begun word at the end miss too. -/
theorem Begun.skips_earlier {K K' : String} {p q : Rule Statement} (h : (K, p) ∈ keywordRules)
    (h' : (K', q) ∈ keywordRules) (ha : apart K.toList K'.toList = true) (hm : Lacks word p c) : (q.run (c.extend a)).outcome = .missing := by
  have always {t : Text} (ht : c.rest ++ a = t) (hq : Skips False q t) : (q.run (c.extend a)).outcome = .missing := by
    have text : c.extend a = ⟨c.offset, t⟩ := by rw [← ht]; rfl
    rw [text]
    exact (hq c.offset).resolve_right fun h => h.1
  rcases hb.rule_begun h hm with ⟨k, hk⟩ | ⟨hend, rfl⟩
  · exact always (by rw [hk, List.append_assoc]) (skips_apart h h' ha (k ++ a))
  · have none : K'.toList.isPrefixOf a = false := by
      obtain ⟨x, hx⟩ := hb.last
      rw [← Bool.not_eq_true, List.isPrefixOf_iff_prefix]
      intro hp
      have whole := isPrefixOf_of_apart ha []
      rw [List.append_nil, ← Bool.not_eq_true, List.isPrefixOf_iff_prefix, hx] at whole
      exact whole (hp.trans (List.prefix_append a [x]))
    by_cases hl : K' = "LET"
    · subst hl
      obtain rfl : q = assignStatement := by simpa [keywordRules] using h'
      obtain ⟨x, y, w, hK, -, hy⟩ := keyword_capitals h
      obtain ⟨k, rfl⟩ := hb.head hK
      refine always (by rw [hend, List.nil_append]) ?_
      cases k with
      | nil => exact skips_unassigned (by simp) (by simp) none
      | cons z k =>
        obtain ⟨l, hl⟩ := hb.last
        obtain rfl : y = z := by
          rw [hK] at hl
          cases hl
          rfl
        exact skips_assignStatement hy none
    · refine (declines_unbegun h' hl ?_).missing
      rw [← List.isPrefixOf_iff_prefix, Bool.not_eq_true]
      show K'.toList.isPrefixOf (c.rest ++ a) = false
      rw [hend]
      exact none

theorem Begun.keeps_single (c : Cursor) : Keeps word a (firstOf statementRules) c := by
  refine Keeps.firstOf (hb.keeps_statementRules c) fun before p after hps hm q hq => ?_
  obtain ⟨K, K', first, earlier, differ⟩ := earlier_apart hps hq
  exact hb.skips_earlier first earlier differ hm

/-- A word that a line misses at its end is missed there too when it has been begun. -/
theorem Begun.keeps_statement (c : Cursor) : Keeps word a statement c := by
  induction hlen : c.rest.length using Nat.strongRecOn generalizing c with
  | ind length ih =>
  rw [statement_eq_another]
  refine Keeps.bind (.firstOf advances_statementRules) (hb.keeps_single c) fun first e he hm => ?_
  have shorter := (Advances.firstOf advances_statementRules).length_le he
  have another := (lacks_orElse hm).resolve_right fun h => not_lacks_pure _ _ h.2
  obtain ⟨u, hu⟩ : ∃ u, e.skip.rest = ":".toList ++ u := hb.mark_ahead ":" (by decide) (lacks_skip.mp another)
  refine ⟨holds_single he hu, Keeps.orElse_quiet ?_ (not_lacks_pure _ _)⟩
  refine hb.keeps_skip (hb.keeps_opening fun k hk => ?_)
  refine Keeps.bind_quiet advances_statement (ih _ ?_ _ rfl) fun _ _ => not_lacks_pure _ _
  have := Nat.lt_of_lt_of_le (Cursor.past_fewer hk (by simp)) e.skip_fewer
  omega

end Begun

end Grammar

end LineBasic
