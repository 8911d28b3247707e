import LineBasic.Proofs.Recursion

/-
  LineBasic.Proofs.Composed — of which steps the run of a rule consists.

  `Composed words toEnd p c` says how the reply of `p` at `c` comes about: it is put together by sequence and choice
  from spaces, literal texts among `words`, and the other lexemes. A derivation is finite and follows the run, so the
  recursion of the grammar is gone: what holds of each step and is kept by sequence and choice holds of every rule of
  the grammar, by one induction. Two steps are less simple. A function call looks at the parenthesis behind its name
  before it reads it (`call`), and an operand of INPUT may be refused after it has been read (`checked`).

  (1) The steps. Everything up to the end is read at once only where `toEnd` allows it.
  (2) Such a reply is attentive: what it misses is not there, and it finds nothing only if it misses something.
  (3) Rules whose runs are composed wherever fewer than `n` characters are ahead.
-/

namespace LineBasic

variable {α β : Type}

namespace Rule

theorem bind_assoc {γ : Type} (p : Rule α) (f : α → Rule β) (g : β → Rule γ) :
    p >>= f >>= g = p >>= fun v => f v >>= g := by
  refine congrArg mk (funext fun c => ?_)
  show ((p.run c).andThen fun v => (f v).run).andThen (fun w => (g w).run) =
    (p.run c).andThen fun v d => ((f v).run d).andThen fun w => (g w).run
  obtain ⟨outcome, misses⟩ := p.run c
  cases outcome with
  | missing => rfl
  | aborted cause => rfl
  | found v d =>
    simp only [Reply.andThen, Reply.after]
    cases ((f v).run d).outcome <;> simp

theorem pure_bind (v : α) (f : α → Rule β) : (pure v : Rule α) >>= f = f v :=
  congrArg mk (funext fun _ => rfl)

/-- A choice that ends in failure is its last alternative. -/
theorem orElse_fail (p : Rule α) : (p <|> fail) = p := by
  refine congrArg mk (funext fun c => ?_)
  show (p.run c).orTry (fun _ => ⟨.missing, []⟩) = p.run c
  obtain ⟨outcome, misses⟩ := p.run c
  cases outcome <;> simp [Reply.orTry, Reply.after]

theorem run_bind_found {p : Rule α} {f : α → Rule β} {c d : Cursor} {v : α} (h : (p.run c).outcome = .found v d) :
    (p >>= f).run c = ((f v).run d).after (p.run c).misses := by
  rw [run_bind, Reply.andThen, h]

theorem run_bind_missing {p : Rule α} {f : α → Rule β} {c : Cursor} (h : (p.run c).outcome = .missing) :
    (p >>= f).run c = ⟨.missing, (p.run c).misses⟩ := by
  rw [run_bind, Reply.andThen, h]

theorem run_bind_aborted {p : Rule α} {f : α → Rule β} {c : Cursor} {cause : Abort}
    (h : (p.run c).outcome = .aborted cause) : (p >>= f).run c = ⟨.aborted cause, (p.run c).misses⟩ := by
  rw [run_bind, Reply.andThen, h]

theorem run_orElse_missing {p q : Rule α} {c : Cursor} (h : (p.run c).outcome = .missing) :
    (p <|> q).run c = (q.run c).after (p.run c).misses := by
  rw [run_orElse, Reply.orTry, h]

theorem run_orElse_found {p q : Rule α} {c d : Cursor} {v : α} (h : (p.run c).outcome = .found v d) :
    (p <|> q).run c = p.run c := by
  rw [run_orElse, Reply.orTry, h]

theorem run_orElse_aborted {p q : Rule α} {c : Cursor} {cause : Abort} (h : (p.run c).outcome = .aborted cause) :
    (p <|> q).run c = p.run c := by
  rw [run_orElse, Reply.orTry, h]

theorem run_literal {word : String} {c : Cursor} (h : word.toList <+: c.rest) :
    (literal word).run c = ⟨.found () (c.advance word.toList.length), []⟩ := by
  simp [literal, lexeme, h]

theorem run_literal_absent {word : String} {c : Cursor} (h : ¬ word.toList <+: c.rest) :
    (literal word).run c = ⟨.missing, [⟨c.offset, .symbol word⟩]⟩ := by
  simp [literal, lexeme, h]

theorem run_here (f : Cursor → Rule β) (c : Cursor) : (do let start ← here; f start).run c = (f c).run c := rfl

/-! ## (1) Steps -/

inductive Composed (words : List String) (toEnd : Prop) : {α : Type} → Rule α → Cursor → Prop
  | pure {α : Type} (v : α) (c : Cursor) : Composed words toEnd (Pure.pure v) c
  | bind {α β : Type} {p : Rule α} {f : α → Rule β} {c : Cursor} : Composed words toEnd p c →
      (∀ v d, (p.run c).outcome = .found v d → Composed words toEnd (f v) d) → Composed words toEnd (p >>= f) c
  | orElse {α : Type} {p q : Rule α} {c : Cursor} : Composed words toEnd p c → Composed words toEnd q c →
      Composed words toEnd (p <|> q) c
  | spaces (c : Cursor) : Composed words toEnd spaces c
  | literal {word : String} (c : Cursor) : word ∈ words → Composed words toEnd (literal word) c
  | letter (c : Cursor) : Composed words toEnd letter c
  | quoted (c : Cursor) : Composed words toEnd quoted c
  | real (c : Cursor) : Composed words toEnd real c
  | integer (c : Cursor) : Composed words toEnd integer c
  /-- A name before a parenthesis, and for a known function what begins with that parenthesis. -/
  | call {β : Type} {g : BuiltIn → Unit → Rule β} {c : Cursor} : "(" ∈ words →
      (∀ name d function, (functionName.run c).outcome = .found name d → Grammar.builtIn? name = some function →
        Composed words toEnd (Rule.literal "(" >>= g function) d) →
      Composed words toEnd (do
        let start ← here
        let name ← functionName
        match Grammar.builtIn? name with
        | some function => Rule.literal "(" >>= g function
        | none => abort (.unknownFunction start.offset name)) c
  /-- What is refused is missed where it begins, but something has been missed behind it already. -/
  | checked {α β : Type} {p : Rule α} {f : Cursor → α → Rule β} {c : Cursor} : Composed words toEnd p c →
      (∀ v d, (p.run c).outcome = .found v d → ∃ m ∈ (p.run c).misses, d.offset ≤ m.offset) →
      (∀ v, (∃ w, ∀ start, f start v = Pure.pure w) ∨ ∀ start : Cursor, f start v = want start.offset .inputOperand) →
      Composed words toEnd (do let start ← here; let v ← p; f start v) c
  | restOfLine (c : Cursor) : toEnd → Composed words toEnd restOfLine c

/-! ## (2) What is missed -/

/-- What a rule misses where `k` is ahead: a literal text that is not there, or another lexeme. -/
def Absent (words : List String) (k : Text) : Wanted → Prop
  | .symbol word => word ∈ words ∧ ¬ word.toList <+: k
  | .integer | .realNumber | .variableName | .quotedText | .functionName | .inputOperand => True
  | .endOfLine | .lineNumber | .blanks | .statement | .other _ => False

/-- A reply at `c` reads on from there, misses what is absent between `c` and the end, misses something if it finds
    nothing, and complains about too many digits only if there are digits. -/
structure Attentive (words : List String) (c : Cursor) (r : Reply α) : Prop where
  reads : ∀ v d, r.outcome = .found v d → ∃ s, c.Reads s d
  misses : ∀ m ∈ r.misses, ∃ s k, c.rest = s ++ k ∧ m.offset = c.offset + s.length ∧ Absent words k m.wanted
  missing : r.outcome = .missing → r.misses ≠ []
  digits : ∀ n, r.outcome = .aborted (.tooManyDigits n) → ∃ ch ∈ c.rest, ch.isDigit = true

variable {words : List String} {toEnd : Prop}

namespace Attentive

variable {c : Cursor} {r : Reply α}

/-- Every miss is between the cursor and the end. -/
theorem between (h : Attentive words c r) {m : Miss} (hm : m ∈ r.misses) :
    c.offset ≤ m.offset ∧ m.offset ≤ c.offset + c.rest.length := by
  obtain ⟨s, k, hs, ho, -⟩ := h.misses m hm
  have hlen := congrArg List.length hs
  rw [List.length_append] at hlen
  omega

theorem andThen {f : α → Cursor → Reply β} (h : Attentive words c r)
    (hf : ∀ v d, r.outcome = .found v d → Attentive words d (f v d)) : Attentive words c (r.andThen f) := by
  obtain ⟨outcome, misses⟩ := r
  cases outcome with
  | missing => exact ⟨fun _ _ hr => (nomatch hr), h.misses, fun _ => h.missing rfl, fun _ hr => (nomatch hr)⟩
  | aborted cause =>
    refine ⟨fun _ _ hr => (nomatch hr), h.misses, fun hr => (nomatch hr), fun n hr => h.digits n ?_⟩
    cases hr
    rfl
  | found v d =>
    obtain ⟨s, hs⟩ := h.reads v d rfl
    have hd := hf v d rfl
    refine ⟨fun w e hr => ?_, fun m hm => ?_, fun hr hn => ?_, fun n hr => ?_⟩
    · obtain ⟨t, ht⟩ := hd.reads w e hr
      exact ⟨s ++ t, hs.trans ht⟩
    · rcases List.mem_append.mp hm with hm | hm
      · exact h.misses m hm
      · obtain ⟨t, k, ht, ho, ha⟩ := hd.misses m hm
        refine ⟨s ++ t, k, by rw [hs.1, ht, List.append_assoc], ?_, ha⟩
        rw [ho, hs.2, List.length_append, Nat.add_assoc]
    · exact hd.missing hr (List.append_eq_nil_iff.mp hn).2
    · obtain ⟨ch, hch, hdigit⟩ := hd.digits n hr
      exact ⟨ch, by rw [hs.1]; exact List.mem_append_right s hch, hdigit⟩

theorem orTry (other : Unit → Reply α) (h : Attentive words c r) (ho : Attentive words c (other ())) :
    Attentive words c (r.orTry other) := by
  obtain ⟨outcome, misses⟩ := r
  cases outcome with
  | found v d => exact h
  | aborted cause => exact h
  | missing =>
    refine ⟨ho.reads, fun m hm => ?_, fun _ hn => ?_, ho.digits⟩
    · rcases List.mem_append.mp hm with hm | hm
      · exact h.misses m hm
      · exact ho.misses m hm
    · exact h.missing rfl (List.append_eq_nil_iff.mp hn).1

/-- A reply that finds something and misses nothing. -/
theorem of_found {v : α} {s : Text} {d : Cursor} (h : c.Reads s d) :
    Attentive words c (⟨.found v d, []⟩ : Reply α) :=
  ⟨fun _ _ hr => by cases hr; exact ⟨s, h⟩, by simp, fun hr => (nomatch hr), fun _ hr => (nomatch hr)⟩

/-- A reply that finds nothing and misses one thing where it stands. -/
theorem of_missing {w : Wanted} (h : Absent words c.rest w) :
    Attentive words c (⟨.missing, [⟨c.offset, w⟩]⟩ : Reply α) := by
  refine ⟨fun _ _ hr => (nomatch hr), fun m hm => ?_, by simp, fun _ hr => (nomatch hr)⟩
  obtain rfl := List.mem_singleton.mp hm
  exact ⟨[], c.rest, rfl, rfl, h⟩

theorem of_aborted (cause : Abort) (h : ∀ n, cause = .tooManyDigits n → ∃ ch ∈ c.rest, ch.isDigit = true) :
    Attentive words c (⟨.aborted cause, []⟩ : Reply α) := by
  refine ⟨fun _ _ hr => (nomatch hr), by simp, fun hr => (nomatch hr), fun n hr => h n ?_⟩
  cases hr
  rfl

end Attentive

/-- What a lexeme finds it reads, and if it finds nothing it misses one thing. -/
theorem attentive_lexeme {wanted : Wanted} {scan : Text → Option (α × Nat)} (ha : Advances (lexeme wanted scan))
    (c : Cursor) (hw : scan c.rest = none → Absent words c.rest wanted) :
    Attentive words c ((lexeme wanted scan).run c) := by
  have found := ha c
  cases hs : scan c.rest with
  | none =>
    have reply : (lexeme wanted scan).run c = ⟨.missing, [⟨c.offset, wanted⟩]⟩ := by simp [lexeme, hs]
    rw [reply]
    exact .of_missing (hw hs)
  | some r =>
    have reply : (lexeme wanted scan).run c = ⟨.found r.1 (c.advance r.2), []⟩ := by simp [lexeme, hs]
    rw [reply] at found ⊢
    obtain ⟨s, hr⟩ := found r.1 _ rfl
    exact .of_found hr

theorem attentive_integer (c : Cursor) : Attentive words c (integer.run c) := by
  have digits : Attentive words c _ := attentive_lexeme sound_digits.advances c fun _ => trivial
  have found := sound_digits c
  show Attentive words c (((lexeme .integer Lexeme.digits).run c).andThen _)
  generalize (lexeme .integer Lexeme.digits).run c = r at digits found
  obtain ⟨outcome, misses⟩ := r
  cases outcome with
  | missing => exact digits.andThen fun _ _ hr => nomatch hr
  | aborted cause => exact digits.andThen fun _ _ hr => nomatch hr
  | found run d =>
    by_cases hlong : digitLimit < run.length
    · obtain ⟨s, hs, rfl, hne, hall⟩ := found run d rfl
      obtain ⟨ch, w, rfl⟩ := List.exists_cons_of_ne_nil hne
      simp only [Reply.andThen, if_pos hlong]
      refine ⟨fun _ _ hr => (nomatch hr), fun m hm => digits.misses m ?_, fun hr => (nomatch hr), fun n _ => ?_⟩
      · simpa [Reply.after, abort] using hm
      · exact ⟨ch, by simp [hs.1], hall ch List.mem_cons_self⟩
    · refine digits.andThen fun v e he => ?_
      cases he
      show Attentive words d ((if digitLimit < run.length then abort _ else pure _ : Rule Int).run d)
      rw [if_neg hlong]
      exact .of_found d.reads_nil

/-- The reply of every composed run is attentive. -/
theorem Composed.attentive {p : Rule α} {c : Cursor} (h : Composed words toEnd p c) : Attentive words c (p.run c) := by
  induction h with
  | pure v c => exact .of_found c.reads_nil
  | bind _ _ ih ihf => exact ih.andThen ihf
  | @orElse α p q c _ _ ih ih' => exact ih.orTry (fun _ => q.run c) ih'
  | spaces c =>
    obtain ⟨s, hs, -⟩ := sound_spaces c () _ rfl
    exact .of_found hs
  | @literal word c h =>
    refine attentive_lexeme (advances_literal word) c fun hn => ⟨h, fun hp => ?_⟩
    rw [if_pos (List.isPrefixOf_iff_prefix.mpr hp)] at hn
    cases hn
  | letter c => exact attentive_lexeme advances_letter c fun _ => trivial
  | quoted c => exact attentive_lexeme sound_quoted.advances c fun _ => trivial
  | real c => exact attentive_lexeme sound_real.advances c fun _ => trivial
  | integer c => exact attentive_integer c
  | @call β g c _ _ ih =>
    rw [run_here]
    refine (attentive_lexeme sound_functionName.advances c fun _ => trivial).andThen fun name d hd => ?_
    dsimp only
    cases hb : Grammar.builtIn? name with
    | some function => exact ih name d function hd hb
    | none => exact .of_aborted _ fun n hn => nomatch hn
  | @checked α β p f c _ _ hf ih =>
    -- The refusal is missed at `c`, so the reply is taken apart here and not by its steps.
    rw [run_here]
    show Attentive words c ((p.run c).andThen fun v => (f c v).run)
    generalize p.run c = r at ih
    obtain ⟨outcome, misses⟩ := r
    cases outcome with
    | missing => exact ih.andThen fun _ _ hr => nomatch hr
    | aborted cause => exact ih.andThen fun _ _ hr => nomatch hr
    | found v d =>
      rcases hf v with ⟨w, hw⟩ | hw
      · refine ih.andThen fun v' e he => ?_
        cases he
        rw [hw]
        exact .of_found d.reads_nil
      · simp only [Reply.andThen, hw]
        refine ⟨fun _ _ hr => (nomatch hr), fun m hm => ?_, by simp [Reply.after, want], fun _ hr => (nomatch hr)⟩
        rcases List.mem_append.mp hm with hm | hm
        · exact ih.misses m hm
        · obtain rfl := List.mem_singleton.mp hm
          exact ⟨[], c.rest, rfl, rfl, trivial⟩
  | restOfLine c _ =>
    obtain ⟨s, hs, -⟩ := sound_restOfLine c () _ rfl
    exact .of_found hs

/-! ## (3) Short texts -/

/-- The runs of the rule are composed where fewer than `n` characters are ahead. -/
def ComposedBelow (words : List String) (toEnd : Prop) (n : Nat) (p : Rule α) : Prop :=
  ∀ c, c.rest.length < n → Composed words toEnd p c

variable {m n : Nat} {p q : Rule α} {f : α → Rule β}

theorem Advances.length_le (ha : Advances p) {c d : Cursor} {v : α} (h : (p.run c).outcome = .found v d) :
    d.rest.length ≤ c.rest.length := by
  obtain ⟨s, hs, -⟩ := ha c v d h
  rw [hs, List.length_append]
  omega

namespace ComposedBelow

theorem mono (h : ComposedBelow words toEnd n p) (hm : m ≤ n) : ComposedBelow words toEnd m p :=
  fun c hc => h c (by omega)

protected theorem pure (v : α) : ComposedBelow words toEnd n (pure v) := fun c _ => .pure v c

theorem spaces : ComposedBelow words toEnd n spaces := fun c _ => .spaces c

theorem literal {word : String} (h : word ∈ words) : ComposedBelow words toEnd n (literal word) :=
  fun c _ => .literal c h

theorem letter : ComposedBelow words toEnd n letter := fun c _ => .letter c

theorem integer : ComposedBelow words toEnd n integer := fun c _ => .integer c

protected theorem bind (h : ComposedBelow words toEnd n p) (ha : Advances p)
    (hf : ∀ v, ComposedBelow words toEnd n (f v)) : ComposedBelow words toEnd n (p >>= f) :=
  fun c hc => .bind (h c hc) fun v d hd => hf v d (Nat.lt_of_le_of_lt (ha.length_le hd) hc)

protected theorem orElse (hp : ComposedBelow words toEnd n p) (hq : ComposedBelow words toEnd n q) :
    ComposedBelow words toEnd n (p <|> q) :=
  fun c hc => .orElse (hp c hc) (hq c hc)

theorem firstOf {ps : List (Rule α)} (hne : ps ≠ []) (h : ∀ p ∈ ps, ComposedBelow words toEnd n p) :
    ComposedBelow words toEnd n (firstOf ps) := by
  induction ps with
  | nil => exact absurd rfl hne
  | cons p ps ih =>
    have hp := h p List.mem_cons_self
    cases ps with
    | nil =>
      show ComposedBelow words toEnd n (p <|> fail)
      rwa [orElse_fail]
    | cons q ps => exact hp.orElse (ih (by simp) fun r hr => h r (List.mem_cons_of_mem _ hr))

/-- Behind literal text fewer characters are ahead. -/
theorem behind_literal {word : String} {f : Unit → Rule β} (h : word ∈ words) (hne : word.toList ≠ [])
    (hf : ∀ v, ComposedBelow words toEnd n (f v)) : ComposedBelow words toEnd (n + 1) (Rule.literal word >>= f) := by
  intro c hc
  refine .bind (.literal c h) fun v d hd => hf v d ?_
  obtain ⟨s, hs, rfl⟩ := sound_literal word c v d hd
  have hlen := congrArg List.length hs.1
  have hpos := List.length_pos_iff.mpr hne
  rw [List.length_append] at hlen
  omega

theorem keyword {word : String} (h : word ∈ words) : ComposedBelow words toEnd n (keyword word) :=
  (literal h).bind (advances_literal word) fun _ => spaces

protected theorem succeeds {p : Rule Unit} (h : ComposedBelow words toEnd n p) (ha : Advances p) :
    ComposedBelow words toEnd n (succeeds p) :=
  (h.bind ha fun _ => .pure true).orElse (.pure false)

theorem spaced {word : String} (h : word ∈ words) :
    ComposedBelow words toEnd n (do Rule.spaces; Rule.literal word; Rule.spaces) :=
  spaces.bind advances_spaces fun _ => (literal h).bind (advances_literal word) fun _ => spaces

/-- A list goes on only behind a separator. -/
theorem separated {separator : String} {item : Rule α} (hs : separator ∈ words) (hne : separator.toList ≠ [])
    (ha : Advances item) (h : ComposedBelow words toEnd n item) :
    ComposedBelow words toEnd n (separated separator item) := by
  induction n with
  | zero => exact fun c hc => absurd hc (Nat.not_lt_zero _)
  | succ n ih =>
    rw [separated_eq hne ha]
    have sep := sound_separator separator
    refine h.bind ha fun first => fun c hc => .bind (ComposedBelow.succeeds (spaced hs) sep.advances c hc) ?_
    intro more d hd
    obtain ⟨s, hr, hm⟩ := sep.succeeds c more d hd
    cases more with
    | false => exact .pure _ d
    | true =>
      have hlen := congrArg List.length hr.1
      have hpos := List.length_pos_iff.mpr hne
      have hword : separator.toList.length ≤ s.length := hm
      rw [List.length_append] at hlen
      have others : ComposedBelow words toEnd n (Rule.separated separator item) := ih (h.mono (Nat.le_succ n))
      exact others.bind (advances_separated hne ha) (fun _ => .pure _) d (by omega)

end ComposedBelow

end Rule

end LineBasic
