import LineBasic.Rule.Parse

/-
  LineBasic.Proofs.Reading — what a rule may find, and what it is sure to find.

  (1) `Sound p L`: whatever `p` finds, the characters it read and the value belong to `L`. It holds of a rule that is
      put together if it holds of the parts, and of a recursive rule if the body passes it on from its inner rule.
  (2) `Takes R p s v k`: where `s` and then `k` are ahead, `p` reads exactly `s` and finds `v`. `Skips R p t`: where `t`
      is ahead, `p` finds nothing. The one thing that may come between is an abort, and that only if `R` holds; with `R`
      false both say exactly what happens.
-/

namespace LineBasic

variable {α β : Type}

/-! ## Outcomes of what is put together -/

theorem Reply.outcome_andThen (r : Reply α) (next : α → Cursor → Reply β) :
    (r.andThen next).outcome = match r.outcome with
      | .found value c => (next value c).outcome
      | .missing => .missing
      | .aborted cause => .aborted cause := by
  unfold Reply.andThen
  cases r.outcome <;> rfl

theorem Reply.outcome_orTry (r : Reply α) (other : Unit → Reply α) :
    (r.orTry other).outcome = match r.outcome with
      | .missing => (other ()).outcome
      | _ => r.outcome := by
  unfold Reply.orTry
  cases h : r.outcome <;> simp [h, Reply.after]

namespace Rule

theorem found_bind {p : Rule α} {f : α → Rule β} {c e : Cursor} {w : β} :
    ((p >>= f).run c).outcome = .found w e ↔
      ∃ v d, (p.run c).outcome = .found v d ∧ ((f v).run d).outcome = .found w e := by
  rw [run_bind, Reply.outcome_andThen]
  cases (p.run c).outcome with
  | found v d => exact ⟨fun h => ⟨v, d, rfl, h⟩, fun ⟨_, _, h, h'⟩ => by cases h; exact h'⟩
  | missing => simp
  | aborted cause => simp

theorem found_orElse {p q : Rule α} {c d : Cursor} {v : α} :
    ((p <|> q).run c).outcome = .found v d ↔
      (p.run c).outcome = .found v d ∨ (p.run c).outcome = .missing ∧ (q.run c).outcome = .found v d := by
  rw [run_orElse, Reply.outcome_orTry]
  cases (p.run c).outcome <;> simp

theorem aborted_bind {p : Rule α} {f : α → Rule β} {c : Cursor} {cause : Abort} :
    ((p >>= f).run c).outcome = .aborted cause ↔ (p.run c).outcome = .aborted cause ∨
      ∃ v d, (p.run c).outcome = .found v d ∧ ((f v).run d).outcome = .aborted cause := by
  rw [run_bind, Reply.outcome_andThen]
  cases (p.run c).outcome with
  | found v d =>
    constructor
    · exact fun h => .inr ⟨v, d, rfl, h⟩
    · rintro (h | ⟨_, _, h, h'⟩) <;> cases h
      exact h'
  | missing => simp
  | aborted cause => simp

theorem aborted_orElse {p q : Rule α} {c : Cursor} {cause : Abort} :
    ((p <|> q).run c).outcome = .aborted cause ↔
      (p.run c).outcome = .aborted cause ∨ (p.run c).outcome = .missing ∧ (q.run c).outcome = .aborted cause := by
  rw [run_orElse, Reply.outcome_orTry]
  cases (p.run c).outcome <;> simp

end Rule

/-! ## (1) What a rule may find -/

theorem Cursor.reads_nil (c : Cursor) : c.Reads [] c := ⟨rfl, rfl⟩

theorem Cursor.Reads.trans {c d e : Cursor} {s t : Text} (h : c.Reads s d) (h' : d.Reads t e) : c.Reads (s ++ t) e := by
  refine ⟨?_, ?_⟩
  · rw [h.1, h'.1, List.append_assoc]
  · rw [h'.2, h.2, List.length_append, Nat.add_assoc]

theorem Cursor.Reads.offset_le {c d : Cursor} {s : Text} (h : c.Reads s d) : c.offset ≤ d.offset := by
  rw [h.2]
  exact Nat.le_add_right _ _

/-- Reading on does not move the end of the span. -/
theorem Cursor.Reads.finish {c d : Cursor} {s : Text} (h : c.Reads s d) :
    c.offset + c.rest.length = d.offset + d.rest.length := by
  rw [h.1, h.2, List.length_append, Nat.add_assoc]

namespace Rule

def Sound (p : Rule α) (L : Text → α → Prop) : Prop :=
  ∀ c v d, (p.run c).outcome = .found v d → ∃ read, c.Reads read d ∧ L read v

variable {p q : Rule α} {L M : Text → α → Prop}

theorem Sound.mono (h : Sound p L) (hLM : ∀ s v, L s v → M s v) : Sound p M := by
  intro c v d hf
  obtain ⟨s, hs, hv⟩ := h c v d hf
  exact ⟨s, hs, hLM s v hv⟩

theorem Sound.advances (h : Sound p L) : Advances p := by
  intro c v d hf
  obtain ⟨s, hs, -⟩ := h c v d hf
  exact ⟨s, hs⟩

theorem Advances.sound (h : Advances p) : Sound p fun _ _ => True := by
  intro c v d hf
  obtain ⟨s, hs⟩ := h c v d hf
  exact ⟨s, hs, trivial⟩

theorem sound_pure {v : α} (h : L [] v) : Sound (pure v) L := by
  intro c w d hf
  cases hf
  exact ⟨[], c.reads_nil, h⟩

theorem sound_fail : Sound fail L := fun _ _ _ h => nomatch h

theorem sound_abort (cause : Abort) : Sound (abort cause) L := fun _ _ _ h => nomatch h

theorem Sound.bind {f : α → Rule β} {N : Text → β → Prop} (hp : Sound p L)
    (hf : ∀ s v, L s v → Sound (f v) fun t w => N (s ++ t) w) : Sound (p >>= f) N := by
  intro c w e h
  obtain ⟨v, d, h1, h2⟩ := found_bind.mp h
  obtain ⟨s, hs, hv⟩ := hp c v d h1
  obtain ⟨t, ht, hw⟩ := hf s v hv d w e h2
  exact ⟨s ++ t, hs.trans ht, hw⟩

theorem Sound.orElse (hp : Sound p L) (hq : Sound q L) : Sound (p <|> q) L := by
  intro c v d h
  rcases found_orElse.mp h with h | ⟨-, h⟩
  · exact hp c v d h
  · exact hq c v d h

theorem Sound.firstOf {ps : List (Rule α)} (h : ∀ p ∈ ps, Sound p L) : Sound (firstOf ps) L := by
  induction ps with
  | nil => exact sound_fail
  | cons p ps ih => exact (h p (by simp)).orElse (ih fun q hq => h q (by simp [hq]))

theorem Sound.fix {body : Rule α → Rule α} (h : ∀ p, Sound p L → Sound (body p) L) : Sound (fix body) L := by
  have hr : ∀ fuel, Sound ⟨rounds body fuel⟩ L := by
    intro fuel
    induction fuel with
    | nil => exact h fail sound_fail
    | cons _ fuel ih => exact h ⟨rounds body fuel⟩ ih
  exact fun c => hr c.rest c

/-- The cursor at which a rule begins is `start` in it. -/
theorem sound_here {f : Cursor → Rule β} {N : Text → β → Prop} (h : ∀ start, Sound (f start) N) :
    Sound (do let start ← here; f start) N := by
  intro c w e hf
  obtain ⟨v, d, h1, h2⟩ := found_bind.mp hf
  cases h1
  exact h c c w e h2

theorem Sound.succeeds {p : Rule Unit} {L : Text → Unit → Prop} (h : Sound p L) :
    Sound (succeeds p) fun s b => if b then L s () else s = [] :=
  .orElse (h.bind fun s _ hs => sound_pure (by simpa using hs)) (sound_pure (by simp))

/-! ### Rules that read on -/

theorem advances_iff : Advances p ↔ Sound p fun _ _ => True := ⟨Advances.sound, Sound.advances⟩

theorem advances_here : Advances here := fun c _ _ h => by cases h; exact ⟨[], c.reads_nil⟩

theorem advances_abort (cause : Abort) : Advances (abort cause : Rule α) := fun _ _ _ h => nomatch h

theorem advances_want (offset : Nat) (wanted : Wanted) : Advances (want offset wanted : Rule α) :=
  fun _ _ _ h => nomatch h

theorem advances_pure (v : α) : Advances (pure v) := advances_iff.mpr (sound_pure trivial)

theorem Advances.bind {f : α → Rule β} (hp : Advances p) (hf : ∀ v, Advances (f v)) : Advances (p >>= f) :=
  advances_iff.mpr (hp.sound.bind fun _ v _ => (hf v).sound)

theorem Advances.orElse (hp : Advances p) (hq : Advances q) : Advances (p <|> q) :=
  advances_iff.mpr (hp.sound.orElse hq.sound)

theorem Advances.firstOf {ps : List (Rule α)} (h : ∀ p ∈ ps, Advances p) : Advances (firstOf ps) :=
  advances_iff.mpr (.firstOf fun p hp => (h p hp).sound)

end Rule

/-! ## (2) What a rule is sure to find -/

/-- The outcome is `expected`, or `risk` holds and it is an abort. -/
def Outcome.Unless (risk : Prop) (o expected : Outcome α) : Prop := o = expected ∨ risk ∧ ∃ cause, o = .aborted cause

theorem Outcome.Unless.mono {R R' : Prop} {o e : Outcome α} (h : o.Unless R e) (hR : R → R') : o.Unless R' e := by
  rcases h with h | ⟨hr, h⟩
  · exact .inl h
  · exact .inr ⟨hR hr, h⟩

theorem Outcome.Unless.resolve {R : Prop} {o e : Outcome α} (h : o.Unless R e) (hR : ¬ R) : o = e := by
  rcases h with h | ⟨hr, -⟩
  · exact h
  · exact absurd hr hR

namespace Rule

def Takes (R : Prop) (p : Rule α) (s : Text) (v : α) (k : Text) : Prop :=
  ∀ o, (p.run ⟨o, s ++ k⟩).outcome.Unless R (.found v ⟨o + s.length, k⟩)

def Skips (R : Prop) (p : Rule α) (t : Text) : Prop := ∀ o, (p.run ⟨o, t⟩).outcome.Unless R .missing

variable {R : Prop} {p q : Rule α} {s t k : Text} {v : α}

theorem Takes.mono {R' : Prop} (h : Takes R p s v k) (hR : R → R') : Takes R' p s v k := fun o => (h o).mono hR

theorem Skips.mono {R' : Prop} (h : Skips R p t) (hR : R → R') : Skips R' p t := fun o => (h o).mono hR

theorem takes_pure : Takes R (pure v) [] v k := fun _ => .inl rfl

theorem skips_fail : Skips R (fail : Rule α) t := fun _ => .inl rfl

theorem Takes.bind {f : α → Rule β} {w : β} (hp : Takes R p s v (t ++ k)) (hf : Takes R (f v) t w k) :
    Takes R (p >>= f) (s ++ t) w k := by
  intro o
  rw [List.append_assoc, run_bind, Reply.outcome_andThen, List.length_append]
  rcases hp o with h | ⟨hr, cause, h⟩
  · rw [h]
    simpa [Nat.add_assoc] using hf (o + s.length)
  · rw [h]
    exact .inr ⟨hr, cause, rfl⟩

/-- What comes after `p` reads nothing. -/
theorem Takes.bind_nil {f : α → Rule β} {w : β} (hp : Takes R p s v k) (hf : Takes R (f v) [] w k) :
    Takes R (p >>= f) s w k := by
  have := Takes.bind (t := []) hp hf
  rwa [List.append_nil] at this

theorem Skips.bind {f : α → Rule β} (h : Skips R p t) : Skips R (p >>= f) t := by
  intro o
  rw [run_bind, Reply.outcome_andThen]
  rcases h o with h | ⟨hr, cause, h⟩
  · rw [h]
    exact .inl rfl
  · rw [h]
    exact .inr ⟨hr, cause, rfl⟩

theorem Takes.bind_skips {f : α → Rule β} (hp : Takes R p s v k) (hf : Skips R (f v) k) : Skips R (p >>= f) (s ++ k) := by
  intro o
  rw [run_bind, Reply.outcome_andThen]
  rcases hp o with h | ⟨hr, cause, h⟩
  · rw [h]
    exact hf (o + s.length)
  · rw [h]
    exact .inr ⟨hr, cause, rfl⟩

theorem takes_here {f : Cursor → Rule β} {w : β} (h : ∀ start, Takes R (f start) s w k) :
    Takes R (do let start ← here; f start) s w k := by
  intro o
  rw [run_bind, Reply.outcome_andThen]
  exact h ⟨o, s ++ k⟩ o

theorem skips_here {f : Cursor → Rule β} (h : ∀ start, Skips R (f start) t) :
    Skips R (do let start ← here; f start) t := by
  intro o
  rw [run_bind, Reply.outcome_andThen]
  exact h ⟨o, t⟩ o

theorem Takes.orElse (h : Takes R p s v k) : Takes R (p <|> q) s v k := by
  intro o
  rw [run_orElse, Reply.outcome_orTry]
  rcases h o with h | ⟨hr, cause, h⟩
  · rw [h]
    exact .inl rfl
  · rw [h]
    exact .inr ⟨hr, cause, rfl⟩

theorem Skips.orElse_takes (hp : Skips R p (s ++ k)) (hq : Takes R q s v k) : Takes R (p <|> q) s v k := by
  intro o
  rw [run_orElse, Reply.outcome_orTry]
  rcases hp o with h | ⟨hr, cause, h⟩
  · rw [h]
    exact hq o
  · rw [h]
    exact .inr ⟨hr, cause, rfl⟩

theorem Skips.orElse (hp : Skips R p t) (hq : Skips R q t) : Skips R (p <|> q) t := by
  intro o
  rw [run_orElse, Reply.outcome_orTry]
  rcases hp o with h | ⟨hr, cause, h⟩
  · rw [h]
    exact hq o
  · rw [h]
    exact .inr ⟨hr, cause, rfl⟩

theorem Skips.firstOf {ps : List (Rule α)} (h : ∀ p ∈ ps, Skips R p t) : Skips R (firstOf ps) t := by
  induction ps with
  | nil => exact skips_fail
  | cons p ps ih => exact (h p (by simp)).orElse (ih fun q hq => h q (by simp [hq]))

/-- A choice takes what one of its alternatives takes if those before it find nothing. -/
theorem Takes.firstOf {before after : List (Rule α)} (hb : ∀ q ∈ before, Skips R q (s ++ k)) (hp : Takes R p s v k) :
    Takes R (firstOf (before ++ p :: after)) s v k := by
  induction before with
  | nil => exact hp.orElse
  | cons q before ih => exact (hb q (by simp)).orElse_takes (ih fun r hr => hb r (by simp [hr]))

theorem Skips.fix {body : Rule α → Rule α} (h : ∀ p, Skips R (body p) t) : Skips R (fix body) t := by
  intro o
  show (rounds body t ⟨o, t⟩).outcome.Unless R .missing
  cases t with
  | nil => exact h fail o
  | cons c t => exact h ⟨rounds body t⟩ o

theorem Takes.succeeds {p : Rule Unit} (h : Takes R p s () k) : Takes R (succeeds p) s true k := by
  have : Takes R (Rule.succeeds p) (s ++ []) true k := .orElse (.bind (by simpa using h) takes_pure)
  simpa using this

theorem Skips.succeeds {p : Rule Unit} (h : Skips R p k) : Takes R (succeeds p) [] false k :=
  Skips.orElse_takes h.bind takes_pure

/-- What a rule takes from a text without risk, it takes from it in one way only. -/
theorem Takes.agree {s' k' : Text} {v v' : α} (h : Takes False p s v k)
    (h' : Takes R p s' v' k') (ht : s ++ k = s' ++ k') : s = s' ∧ v = v' ∧ k = k' := by
  have found := (h 0).resolve id
  rw [ht] at found
  rcases h' 0 with found' | ⟨-, cause, aborted⟩
  · rw [found] at found'
    obtain ⟨rfl, hc⟩ := Outcome.found.inj found'
    obtain rfl : k = k' := congrArg Cursor.rest hc
    exact ⟨List.append_cancel_right ht, rfl, rfl⟩
  · rw [found] at aborted
    cases aborted

end Rule

end LineBasic
