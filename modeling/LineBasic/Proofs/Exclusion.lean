import LineBasic.Proofs.Bookkeeping
import LineBasic.Proofs.Reach
import LineBasic.Proofs.Whole

/-
  LineBasic.Proofs.Exclusion — the order in which the rules for single statements are tried does not show.

  No two keywords can stand at one place, and an assignment without its keyword has an index or an equals sign where
  every other statement has its second capital.

  (1) At any place there is one rule such that all others find nothing there, and what they miss is missed before the
      end of what that rule finds (`exists_alone`).
  (2) So the same rules in another order have the same outcome. If they find nothing, they miss the same things. If
      they find something, they may have missed other things, but in front of its end (`Reply.Matches`).
  (3) A line that is rejected has missed something behind all that was found. So the misses that differ are not the
      farthest ones, and a line is read alike in every order of the rules (`matches_statementOf`, `parseSpan_matches`).
-/

namespace LineBasic

open Rule

variable {α β : Type}

/-! ## (1) One rule at a place -/

/-- The others find nothing where `p` begins, and what they miss is before the end of what `p` finds. -/
structure Rule.Alone (p : Rule α) (others : List (Rule α)) (c : Cursor) : Prop where
  missing : ∀ q ∈ others, (q.run c).outcome = .missing
  before : ∀ q ∈ others, ∀ m ∈ (q.run c).misses, ∀ v d, (p.run c).outcome = .found v d → m.offset < d.offset

namespace Grammar

open Spelling

variable {K K' : String} {p : Rule Statement} {c d : Cursor} {v : Statement} {s : Text}

theorem apart_comm (s t : Text) : apart s t = apart t s := by
  induction s generalizing t with
  | nil => cases t <;> rfl
  | cons x s ih =>
    cases t with
    | nil => rfl
    | cons y t =>
      unfold apart
      rw [ih t]
      simp only [ne_comm]

theorem not_apart_self (s : Text) : apart s s = false := by
  induction s with
  | nil => rfl
  | cons x s ih => simp [apart, ih]

/-- The keyword of a rule is apart from those of the rules around it. -/
theorem keywordRules_split (h : (K, p) ∈ keywordRules) : ∃ before after, keywordRules = before ++ (K, p) :: after ∧
    ∀ e ∈ before ++ after, e ∈ keywordRules ∧ apart K.toList e.1.toList = true := by
  obtain ⟨before, after, split⟩ := List.append_of_mem h
  have ordered := keywordRules_apart
  rw [split, List.pairwise_append] at ordered
  obtain ⟨-, behind, across⟩ := ordered
  refine ⟨before, after, split, fun e he => ?_⟩
  rcases List.mem_append.mp he with he | he
  · refine ⟨by rw [split]; exact List.mem_append_left _ he, across e he _ List.mem_cons_self⟩
  · refine ⟨by rw [split]; exact List.mem_append_right _ (List.mem_cons_of_mem _ he), ?_⟩
    rw [apart_comm]
    exact (List.pairwise_cons.mp behind).1 e he

/-- No statement is shorter than its keyword, or than a name and an equals sign. -/
theorem two_le_single (h : Single s v) : 2 ≤ s.length := by
  cases h with
  | assign _ ht =>
    obtain ⟨x, r, hs, -⟩ := assigned_text ht
    simp only [hs, List.length_append, List.length_cons]
    omega
  | _ => simp

/-- What a rule finds ends behind the second character. -/
theorem two_le_found (hp : p ∈ statementRules) (hf : (p.run c).outcome = .found v d) : c.offset + 2 ≤ d.offset := by
  rcases List.mem_cons.mp hp with rfl | hp
  · obtain ⟨-, -, s, hs⟩ := sound_remarkStatement hf
    rw [hs.2, List.length_append]
    show c.offset + 2 ≤ c.offset + (3 + s.length)
    omega
  · obtain ⟨s, hs, single⟩ := sound_others p hp c v d hf
    have := two_le_single single
    rw [hs.2]
    omega

/-- Where a keyword stands, the rules of the other keywords find nothing and miss nothing behind its first capital. -/
theorem declines_apart (h : (K, p) ∈ keywordRules) (hK : K.toList <+: c.rest) {q : Rule Statement}
    (hq : (K', q) ∈ keywordRules) (ha : apart K.toList K'.toList = true) :
    (q.run c).outcome = .missing ∧ (q.run c).Within (c.offset + 1) := by
  obtain ⟨r, hr⟩ := hK
  have none : ¬ K'.toList <+: c.rest := by
    intro hp
    have absent := isPrefixOf_of_apart ha r
    rw [hr, List.isPrefixOf_iff_prefix.mpr hp] at absent
    cases absent
  by_cases hlet : K' = "LET"
  · subst hlet
    obtain ⟨x, y, w, hxy, hx, hy⟩ := keyword_capitals h
    obtain rfl : q = assignStatement := by
      simp only [keywordRules, List.mem_cons, Prod.mk.injEq, List.not_mem_nil, or_false] at hq
      simpa using hq
    have text : c.rest = x :: y :: (w ++ r) := by
      rw [← hr, hxy]
      rfl
    have absent := isPrefixOf_of_apart ha r
    rw [hr, text] at absent
    refine ⟨?_, within_assignStatement text hx hy none⟩
    have skips : Skips False assignStatement c.rest := text ▸ skips_assignStatement hy absent
    exact (skips c.offset).resolve_right fun hf => hf.1
  · have declines := declines_unbegun hq hlet none
    exact ⟨declines.missing, declines.here.mono (Nat.le_succ _)⟩

/-- At any place all rules but one find nothing, and they miss nothing behind what that one finds. -/
theorem exists_alone (c : Cursor) : ∃ before p after, statementRules = before ++ p :: after ∧
    Alone p (before ++ after) c := by
  have split {K : String} {p : Rule Statement} {n : Nat} (h : (K, p) ∈ keywordRules) (hn : n < c.offset + 2)
      (others : ∀ e ∈ keywordRules, apart K.toList e.1.toList = true →
        (e.2.run c).outcome = .missing ∧ (e.2.run c).Within n) :
      ∃ before p after, statementRules = before ++ p :: after ∧ Alone p (before ++ after) c := by
    obtain ⟨before, after, hsplit, apart⟩ := keywordRules_split h
    have rules : statementRules = before.map Prod.snd ++ p :: after.map Prod.snd := by
      rw [statementRules_eq, hsplit, List.map_append, List.map_cons]
    have mem : p ∈ statementRules := by
      rw [rules]
      exact List.mem_append_right _ List.mem_cons_self
    refine ⟨_, p, _, rules, ?_, ?_⟩
    · intro q hq
      rw [← List.map_append] at hq
      obtain ⟨e, he, rfl⟩ := List.mem_map.mp hq
      exact (others e (apart e he).1 (apart e he).2).1
    · intro q hq m hm v d hf
      rw [← List.map_append] at hq
      obtain ⟨e, he, rfl⟩ := List.mem_map.mp hq
      have near := (others e (apart e he).1 (apart e he).2).2 m hm
      have far := two_le_found mem hf
      omega
  by_cases stands : ∃ K p, (K, p) ∈ keywordRules ∧ K.toList <+: c.rest
  · obtain ⟨K, p, h, hK⟩ := stands
    exact split h (Nat.lt_succ_self _) fun e he ha => declines_apart h hK he ha
  · have assign : ("LET", assignStatement) ∈ keywordRules := by simp [keywordRules]
    refine split assign (Nat.lt_succ_self _) fun e he ha => ?_
    have other : e.1 ≠ "LET" := by
      intro hl
      rw [hl, not_apart_self] at ha
      cases ha
    have declines := declines_unbegun he other fun hK => stands ⟨e.1, e.2, he, hK⟩
    exact ⟨declines.missing, declines.here.mono (Nat.le_succ _)⟩

end Grammar

/-! ## (2) Replies that come to the same -/

/-- The same outcome, and the same misses where they can still be the farthest: behind what is found, if anything is. -/
structure Reply.Matches (r r' : Reply α) : Prop where
  outcome : r.outcome = r'.outcome
  found : ∀ v d, r.outcome = .found v d → ∀ m : Miss, d.offset ≤ m.offset → (m ∈ r.misses ↔ m ∈ r'.misses)
  missing : r.outcome = .missing → SameSet r.misses r'.misses

theorem Reply.matches_refl (r : Reply α) : r.Matches r := ⟨rfl, fun _ _ _ _ _ => Iff.rfl, fun _ => .refl _⟩

/-- The same thing is found, and the same is missed behind it. -/
theorem Reply.matches_found {v : α} {d : Cursor} {misses misses' : List Miss}
    (h : ∀ m : Miss, d.offset ≤ m.offset → (m ∈ misses ↔ m ∈ misses')) :
    (⟨.found v d, misses⟩ : Reply α).Matches ⟨.found v d, misses'⟩ := by
  refine ⟨rfl, fun w e he m hm => ?_, fun hm => ?_⟩
  · cases he
    exact h m hm
  · cases hm

/-- Nothing is found, and the same is missed. -/
theorem Reply.matches_missing {misses misses' : List Miss} (h : SameSet misses misses') :
    (⟨.missing, misses⟩ : Reply α).Matches ⟨.missing, misses'⟩ := by
  refine ⟨rfl, fun v d hf => ?_, fun _ => h⟩
  cases hf

theorem Reply.matches_aborted {r r' : Reply α} {cause : Abort} (h : r.outcome = .aborted cause)
    (h' : r'.outcome = .aborted cause) : r.Matches r' := by
  refine ⟨h.trans h'.symm, fun v d hd => ?_, fun hm => ?_⟩
  · rw [h] at hd
    cases hd
  · rw [h] at hm
    cases hm

namespace Rule

variable {p q : Rule α} {c d : Cursor} {v : α}

theorem matches_map (g : α → β) (h : (p.run c).Matches (q.run c)) :
    ((p >>= fun v => pure (g v)).run c).Matches ((q >>= fun v => pure (g v)).run c) := by
  cases hp : (p.run c).outcome with
  | found v d =>
    have hq := h.outcome ▸ hp
    rw [run_bind_found hp, run_bind_found hq]
    refine Reply.matches_found fun m hm => ?_
    simpa [Reply.after] using h.found v d hp m hm
  | missing =>
    have hq := h.outcome ▸ hp
    rw [run_bind_missing hp, run_bind_missing hq]
    exact Reply.matches_missing (h.missing hp)
  | aborted cause =>
    have hq := h.outcome ▸ hp
    rw [run_bind_aborted hp, run_bind_aborted hq]
    exact Reply.matches_aborted rfl rfl

/-- Something is found if only the first alternative can fail. -/
theorem matches_orElse_pure (h : (p.run c).Matches (q.run c)) :
    ((p <|> pure v).run c).Matches ((q <|> pure v).run c) := by
  cases hp : (p.run c).outcome with
  | found w d =>
    have hq := h.outcome ▸ hp
    rw [run_orElse_found hp, run_orElse_found hq]
    exact h
  | missing =>
    have hq := h.outcome ▸ hp
    rw [run_orElse_missing hp, run_orElse_missing hq]
    refine Reply.matches_found fun m _ => ?_
    simpa [Reply.after] using h.missing hp m
  | aborted cause =>
    have hq := h.outcome ▸ hp
    rw [run_orElse_aborted hp, run_orElse_aborted hq]
    exact h

/-- Behind what is found, replies that match go on to match if something more is always found. -/
theorem matches_behind {f g : α → Rule β} (h : (p.run c).Matches (q.run c))
    (hf : ∀ v d, (p.run c).outcome = .found v d → ((f v).run d).Matches ((g v).run d) ∧ Advances (f v) ∧
      ((f v).run d).outcome ≠ .missing) : ((p >>= f).run c).Matches ((q >>= g).run c) := by
  cases hp : (p.run c).outcome with
  | found v d =>
    have hq := h.outcome ▸ hp
    obtain ⟨more, advances, some⟩ := hf v d hp
    rw [run_bind_found hp, run_bind_found hq]
    refine ⟨more.outcome, fun w e he m hm => ?_, fun hm => absurd hm some⟩
    obtain ⟨s, hs⟩ := advances d w e he
    have behind : d.offset ≤ m.offset := by
      rw [hs.2] at hm
      omega
    simp only [Reply.after, List.mem_append]
    exact or_congr (h.found v d hp m behind) (more.found w e he m hm)
  | missing =>
    have hq := h.outcome ▸ hp
    rw [run_bind_missing hp, run_bind_missing hq]
    exact Reply.matches_missing (h.missing hp)
  | aborted cause =>
    have hq := h.outcome ▸ hp
    rw [run_bind_aborted hp, run_bind_aborted hq]
    exact Reply.matches_aborted rfl rfl

/-- Alternatives that find nothing only miss something. -/
theorem run_firstOf_behind {before rest : List (Rule α)} (h : ∀ q ∈ before, (q.run c).outcome = .missing) :
    (firstOf (before ++ rest)).run c = ((firstOf rest).run c).after (before.flatMap fun q => (q.run c).misses) := by
  induction before with
  | nil => rfl
  | cons q before ih =>
    show (q <|> firstOf (before ++ rest)).run c = _
    rw [run_orElse_missing (h q List.mem_cons_self), ih fun r hr => h r (List.mem_cons_of_mem _ hr)]
    simp [Reply.after]

/-- The order of the alternatives does not matter where all but one find nothing. -/
theorem matches_firstOf {before before' after after' : List (Rule α)} (h : Alone p (before ++ after) c)
    (same : (before' ++ after').Perm (before ++ after)) :
    ((firstOf (before' ++ p :: after')).run c).Matches ((firstOf (before ++ p :: after)).run c) := by
  have missing {q : Rule α} (hq : q ∈ before' ++ after') : (q.run c).outcome = .missing :=
    h.missing q (same.mem_iff.mp hq)
  have tried : (firstOf (before ++ p :: after)).run c = _ :=
    run_firstOf_behind fun q hq => h.missing q (List.mem_append_left _ hq)
  have tried' : (firstOf (before' ++ p :: after')).run c = _ :=
    run_firstOf_behind fun q hq => missing (List.mem_append_left _ hq)
  rw [tried, tried']
  show (((p <|> firstOf after').run c).after _).Matches (((p <|> firstOf after).run c).after _)
  cases hp : (p.run c).outcome with
  | found v d =>
    rw [run_orElse_found hp, run_orElse_found hp]
    have nearer (qs : List (Rule α)) (hqs : ∀ q ∈ qs, q ∈ before ++ after) {m : Miss} (hm : d.offset ≤ m.offset) :
        m ∉ qs.flatMap fun q => (q.run c).misses := by
      intro hmem
      obtain ⟨q, hq, hmem⟩ := List.mem_flatMap.mp hmem
      have := h.before q (hqs q hq) m hmem v d hp
      omega
    simp only [Reply.after, hp]
    refine Reply.matches_found fun m hm => ?_
    have other := nearer before' (fun q hq => same.mem_iff.mp (List.mem_append_left _ hq)) hm
    have own := nearer before (fun q hq => List.mem_append_left _ hq) hm
    rw [List.mem_append, List.mem_append, or_iff_right other, or_iff_right own]
  | missing =>
    have all {qs : List (Rule α)} (hqs : ∀ q ∈ qs, (q.run c).outcome = .missing) :
        (firstOf qs).run c = ⟨.missing, qs.flatMap fun q => (q.run c).misses⟩ := by
      have run : (firstOf (qs ++ [])).run c = _ := run_firstOf_behind hqs
      rw [List.append_nil] at run
      rw [run]
      simp [firstOf, fail, Reply.after]
    rw [run_orElse_missing hp, run_orElse_missing hp, all fun q hq => h.missing q (List.mem_append_right _ hq),
      all fun q hq => missing (List.mem_append_right _ hq)]
    refine Reply.matches_missing fun m => ?_
    have members : (∃ q ∈ before' ++ after', m ∈ (q.run c).misses) ↔ ∃ q ∈ before ++ after, m ∈ (q.run c).misses :=
      exists_congr fun q => and_congr_left fun _ => same.mem_iff
    simp only [List.mem_append, or_and_right, exists_or] at members
    simp only [Reply.after, List.mem_append, List.mem_flatMap]
    rw [or_left_comm, members, or_left_comm]
  | aborted cause =>
    rw [run_orElse_aborted hp, run_orElse_aborted hp]
    exact Reply.matches_aborted hp hp

end Rule

/-! ## (3) Lines -/

/-- Misses that differ only in front of one of them cannot be told apart. -/
theorem Frontier.same_beyond (f : Frontier) {n : Nat} {misses misses' : List Miss}
    (h : ∀ m : Miss, n ≤ m.offset → (m ∈ misses ↔ m ∈ misses')) (reached : ∃ m ∈ misses, n ≤ m.offset) :
    (f.recordAll misses).Same (f.recordAll misses') := by
  obtain ⟨m, hm, hn⟩ := reached
  obtain ⟨-, all, one⟩ := f.farthest_recordAll misses
  obtain ⟨-, all', one'⟩ := f.farthest_recordAll misses'
  have near := all m hm
  have near' := all' m ((h m hn).mp hm)
  have le := (f.farthest_recordAll misses).1
  have le' := (f.farthest_recordAll misses').1
  have far : (f.recordAll misses).farthest = (f.recordAll misses').farthest := by
    apply Nat.le_antisymm
    · rcases one with one | ⟨k, hk, one⟩
      · omega
      · rw [← one]
        exact all' k ((h k (by omega)).mp hk)
    · rcases one' with one' | ⟨k, hk, one'⟩
      · omega
      · rw [← one']
        exact all k ((h k (by omega)).mpr hk)
  refine ⟨far, fun w => ?_⟩
  rw [f.mem_wanted_recordAll, f.mem_wanted_recordAll, ← far]
  exact or_congr_right (h _ (Nat.le_trans hn near))

/-- Where the replies of two rules match, they read the span alike. -/
theorem Rule.parseSpan_matches {p q : Rule α} {o : Nat} {t : Text} (h : (p.run ⟨o, t⟩).Matches (q.run ⟨o, t⟩)) :
    p.parseSpan o t = q.parseSpan o t := by
  unfold parseSpan
  cases hp : (p.run ⟨o, t⟩).outcome with
  | found v d =>
    have hq := h.outcome ▸ hp
    rw [run_whole hp, run_whole hq]
    by_cases hend : d.skip.rest = []
    · simp only [if_pos hend]
    · have behind (m : Miss) (hm : d.offset ≤ m.offset) : m ∈ (p.run ⟨o, t⟩).misses ++ [⟨d.ahead, .endOfLine⟩] ↔
          m ∈ (q.run ⟨o, t⟩).misses ++ [⟨d.ahead, .endOfLine⟩] := by
        rw [List.mem_append, List.mem_append, h.found v d hp m hm]
      have same := Frontier.same_beyond (Frontier.start o) behind
        ⟨_, List.mem_append_right _ (List.mem_singleton_self _), d.offset_le_ahead⟩
      simp only [if_neg hend, (Session.expected_of_same same).2]
  | missing =>
    have hq := h.outcome ▸ hp
    have same := Frontier.Same.recordAll (Frontier.start o) (h.missing hp)
    simp only [whole, run_bind_missing hp, run_bind_missing hq, (Session.expected_of_same same).2]
  | aborted cause =>
    have hq := h.outcome ▸ hp
    simp only [whole, run_bind_aborted hp, run_bind_aborted hq]

namespace Grammar

variable {rules : List (Rule Statement)}

theorem matches_single (h : rules.Perm statementRules) (c : Cursor) :
    ((firstOf rules).run c).Matches ((firstOf statementRules).run c) := by
  obtain ⟨before, p, after, split, alone⟩ := exists_alone c
  rw [split] at h ⊢
  have mem : p ∈ rules := h.mem_iff.mpr (List.mem_append_right _ List.mem_cons_self)
  obtain ⟨before', after', rfl⟩ := List.append_of_mem mem
  have others : (before' ++ after').Perm (before ++ after) :=
    (List.perm_middle.symm.trans (h.trans List.perm_middle)).cons_inv
  exact matches_firstOf alone others

section Another

variable {d : Cursor} {k : Text} (first : Statement) {line : Rule Statement}

theorem run_another_colon (hk : d.skip.rest = ":".toList ++ k) :
    (do spaces; literal ":"; spaces; let rest ← line; pure (Statement.sequence first rest)).run d =
      (line >>= fun rest => pure (.sequence first rest)).run (d.skip.past ":" k) := by
  rw [run_skip, run_opening hk]

theorem run_another_none (colon : ¬ ":".toList <+: d.skip.rest) :
    (do spaces; literal ":"; spaces; let rest ← line; pure (Statement.sequence first rest)).run d =
      ⟨.missing, [⟨d.ahead, .symbol ":"⟩]⟩ := by
  rw [run_skip]
  exact run_no_mark colon

end Another

/-- A line is read alike in every order of the rules for single statements. -/
theorem matches_statementOf (h : rules.Perm statementRules) (c : Cursor) :
    ((statementOf rules).run c).Matches (statement.run c) := by
  -- Behind a colon fewer characters are ahead.
  induction hn : c.rest.length using Nat.strongRecOn generalizing c with
  | ind n ih =>
    have advances : ∀ p ∈ rules, Advances p := fun p hp => advances_statementRules p (h.mem_iff.mp hp)
    have advancesLine : Advances (statementOf rules) := advances_fix (guarded_statementOf advances).advances
    rw [statementOf_eq advances, statement_eq]
    refine matches_behind (matches_single h c) fun first d hd => ⟨?_, ?_, ?_⟩
    · apply matches_orElse_pure
      by_cases colon : ":".toList <+: d.skip.rest
      · obtain ⟨k, hk⟩ := colon
        have shorter : (d.skip.past ":" k).rest.length < n := by
          have one := (Advances.firstOf advances).length_le hd
          have two := Cursor.past_fewer hk.symm (by simp)
          have three := d.skip_fewer
          omega
        rw [run_another_colon _ hk.symm, run_another_colon _ hk.symm]
        exact matches_map _ (ih _ shorter _ rfl)
      · rw [run_another_none _ colon, run_another_none _ colon]
        exact Reply.matches_refl _
    · refine .orElse (advances_spaces.bind fun _ => (advances_literal _).bind fun _ => ?_) (advances_pure first)
      exact advances_spaces.bind fun _ => advancesLine.bind fun _ => advances_pure _
    · intro missing
      rw [run_orElse, Reply.outcome_orTry] at missing
      split at missing
      · cases missing
      · contradiction

end Grammar

open Grammar

/-- At any place at most one of the rules for single statements finds anything or aborts. So in whatever order they are
    tried, a text has the same tree, or the same error with the same things expected, or the same abort. -/
theorem statementRules_exclusive :
    (∀ c, statementRules.Pairwise fun p q => (p.run c).outcome = .missing ∨ (q.run c).outcome = .missing) ∧
    ∀ rules, rules.Perm statementRules → ∀ t, (statementOf rules).parse t = Statement.ofText t := by
  constructor
  · intro c
    obtain ⟨before, p, after, split, alone⟩ := exists_alone c
    have earlier : ∀ q ∈ before, (q.run c).outcome = .missing :=
      fun q hq => alone.missing q (List.mem_append_left _ hq)
    have later : ∀ q ∈ after, (q.run c).outcome = .missing :=
      fun q hq => alone.missing q (List.mem_append_right _ hq)
    rw [split, List.pairwise_append, List.pairwise_cons]
    refine ⟨?_, ⟨fun q hq => .inr (later q hq), ?_⟩, fun q hq _ _ => .inl (earlier q hq)⟩
    · exact List.pairwise_of_forall_mem_list fun q hq _ _ => .inl (earlier q hq)
    · exact List.pairwise_of_forall_mem_list fun q hq _ _ => .inl (later q hq)
  · intro rules h t
    exact parseSpan_matches (matches_statementOf h ⟨0, t⟩)

/-- Tried in the opposite order, the rules expect the same things behind `GOTO 10`. -/
theorem statementRules_exclusive_reversed : statementRules.reverse.Perm statementRules ∧
    (statementOf statementRules.reverse).parse "GOTO 10 X".toList = Statement.ofText "GOTO 10 X".toList :=
  ⟨List.reverse_perm _, statementRules_exclusive.2 _ (List.reverse_perm _) "GOTO 10 X".toList⟩

end LineBasic
