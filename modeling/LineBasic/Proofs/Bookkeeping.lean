import LineBasic.Proofs.Progress

/-
  LineBasic.Proofs.Bookkeeping — what the steps on a span record, and that they do not interfere.

  (1) The only thing that steps share is the frontier, and none but `error` looks at it (`step_frontier`, `step_result`).
  (2) A step records what its rule misses. What is missed is at the offset of the step or behind it, and a step that finds
      nothing has missed something (`misses_between`, `misses_of_nothing`).
  (3) So a step has the result it has alone (`result_alone`). The frontier after a run is told by the misses of all its
      steps: the farthest of them, and what was wanted there (`ending_eq`). Which step comes first, and how often, does not
      matter (`steps_independent`).
-/

namespace LineBasic.Session

open Rule

variable (span : Span)

/-! ## (1) One step -/

/-- What a step misses, whatever came before it. -/
def Step.misses (step : Step) : List Miss := ((step.reply span).map Reply.misses).getD []

theorem step_frontier (f : Frontier) (step : Step) : (step.run span f).2 = f.recordAll (step.misses span) := by
  unfold Step.run Step.misses
  cases step.reply span with
  | some reply => rfl
  | none => cases step <;> rfl

theorem misses_start (step : Step) (start : Nat) : step.misses ⟨span.text, start, span.stop⟩ = step.misses span := by
  cases step <;> rfl

/-- Neither the frontier nor the start of the span tells what a step finds, makes or raises. -/
theorem step_result {step : Step} (h : step ≠ .error) (f g : Frontier) (start : Nat) :
    (step.run span f).1 = (step.run ⟨span.text, start, span.stop⟩ g).1 := by
  cases step with
  | error => exact absurd rfl h
  | _ => rfl

/-! ## (2) What a step records -/

section Recording

variable {α : Type} {c d : Cursor} {item : Rule α} {offset : Nat}

/-- A reply at `c` misses what it misses between there and the end, and misses something if it finds nothing. -/
structure Heeds (c : Cursor) (r : Reply α) : Prop where
  between : ∀ m ∈ r.misses, c.offset ≤ m.offset ∧ m.offset ≤ c.offset + c.rest.length
  missing : r.outcome = .missing → r.misses ≠ []

theorem heeds_of_attentive {words : List String} {r : Reply α} (h : Attentive words c r) : Heeds c r :=
  ⟨fun _ hm => h.between hm, h.missing⟩

theorem heeds_composed {words : List String} {toEnd : Prop} {p : Rule α} (h : Composed words toEnd p c) :
    Heeds c (p.run c) := heeds_of_attentive h.attentive

theorem Heeds.map {β : Type} {p : Rule α} {f : α → β} (h : Heeds c (p.run c)) :
    Heeds c ((do let v ← p; pure (f v) : Rule β).run c) := by
  rw [run_bind]
  generalize p.run c = r at h
  obtain ⟨outcome, misses⟩ := r
  cases outcome with
  | found v d => exact ⟨by simpa [Reply.andThen, Reply.after] using h.between, by simp [Reply.andThen, Reply.after]⟩
  | missing => exact ⟨h.between, fun _ => h.missing rfl⟩
  | aborted cause => exact ⟨h.between, by simp [Reply.andThen]⟩

theorem Heeds.orElse {p q : Rule α} (h : Heeds c (p.run c))
    (h' : ∀ m ∈ (q.run c).misses, c.offset ≤ m.offset ∧ m.offset ≤ c.offset + c.rest.length) :
    Heeds c ((p <|> q).run c) := by
  rw [run_orElse]
  generalize p.run c = r at h
  obtain ⟨outcome, misses⟩ := r
  cases outcome with
  | found v d => exact h
  | aborted cause => exact h
  | missing =>
    refine ⟨fun m hm => ?_, fun _ hn => h.missing rfl (List.append_eq_nil_iff.mp hn).1⟩
    rcases List.mem_append.mp hm with hm | hm
    · exact h.between m hm
    · exact h' m hm

/-- What is missed further on is between the cursor and the end as well. -/
theorem Heeds.behind {s : Text} {misses : List Miss} {r : Reply α} (h : Heeds d r) (hs : c.Reads s d)
    (hm : ∀ m ∈ misses, c.offset ≤ m.offset ∧ m.offset ≤ c.offset + c.rest.length) : Heeds c (r.after misses) := by
  have later := hs.offset_le
  have same := hs.finish
  refine ⟨fun m hmem => ?_, fun hr hn => h.missing hr (List.append_eq_nil_iff.mp hn).2⟩
  rcases List.mem_append.mp hmem with hmem | hmem
  · exact hm m hmem
  · have := h.between m hmem
    omega

theorem heeds_between (separator : String) (c : Cursor) : Heeds c ((between separator).run c) := by
  have composed : Composed [separator] False (between separator) c :=
    .bind (.spaces c) fun _ d _ => .bind (.literal d List.mem_cons_self) fun _ e _ => .spaces e
  exact heeds_composed composed

theorem heeds_list {separator : String} {earlier : List α} {n : Nat} {r : Reply (List α)} (ha : Advances item)
    (hi : ∀ c, Heeds c (item.run c)) (h : ListLoop separator item earlier c n r) : Heeds c r := by
  induction h with
  | missing hm => exact ⟨(hi _).between, fun _ => (hi _).missing hm⟩
  | aborted _ => exact ⟨(hi _).between, fun hr => nomatch hr⟩
  | last hf _ =>
    obtain ⟨s, hs⟩ := ha _ _ _ hf
    have behind := (heeds_between separator _).behind hs (hi _).between
    exact ⟨behind.between, fun hr => nomatch hr⟩
  | turn hf hsep _ ih =>
    obtain ⟨s, hs⟩ := ha _ _ _ hf
    obtain ⟨t, ht⟩ := (sound_separator separator).advances _ _ _ hsep
    exact ih.behind (hs.trans ht) ((heeds_between separator _).behind hs (hi _).between).between

theorem heeds_missing (c : Cursor) (wanted : Wanted) : Heeds c (⟨.missing, [⟨c.offset, wanted⟩]⟩ : Reply α) :=
  ⟨by simp, fun _ => List.cons_ne_nil _ _⟩

/-- Beyond the span the rule itself is missed. -/
theorem heeds_within {wanted : Wanted} {p : Rule α} (h : Heeds c (p.run c)) : Heeds c ((within span wanted p).run c) := by
  show Heeds c (if c.offset ≤ span.stop then p.run c else ⟨.missing, [⟨c.offset, wanted⟩]⟩)
  split
  · exact h
  · exact heeds_missing c wanted

theorem heeds_symbolRule (spelling : String) (c : Cursor) : Heeds c ((symbolRule span spelling).run c) := by
  have composed : Composed [spelling] False (literal spelling) c := .literal c List.mem_cons_self
  exact heeds_within span (heeds_composed composed)

theorem heeds_endOfLine (c : Cursor) : Heeds c (endOfLine.run c) := by
  show Heeds c (if c.rest = [] then ⟨.found () c, []⟩ else ⟨.missing, [⟨c.offset, .endOfLine⟩]⟩)
  split
  · exact ⟨by simp, fun hr => nomatch hr⟩
  · exact heeds_missing c .endOfLine

theorem RuleRef.heeds (ref : RuleRef) (c : Cursor) : Heeds c ((ref.rule span).run c) := by
  cases ref with
  | named name => exact heeds_composed (name.composed c)
  | symbol spelling => exact (heeds_symbolRule span spelling c).map (f := fun _ => Value.text spelling.toList)

theorem RuleRef.consumes {ref : RuleRef} (h : ref ≠ .symbol "") : Consumes (ref.rule span) := by
  cases ref with
  | named name => exact name.consumes
  | symbol spelling =>
    have literal : Consumes (symbolRule span spelling) := by
      intro c v d hf
      by_cases inside : c.offset ≤ span.stop
      · have reply : (symbolRule span spelling).run c = (literal spelling).run c := if_pos inside
        rw [reply] at hf
        obtain ⟨s, hs, hspelling⟩ := sound_literal spelling c v d hf
        refine ⟨s, hs, ?_⟩
        rintro rfl
        exact h (congrArg RuleRef.symbol (String.toList_inj.mp hspelling.symm))
      · have reply : (symbolRule span spelling).run c = ⟨.missing, [⟨c.offset, .symbol spelling⟩]⟩ := if_neg inside
        rw [reply] at hf
        cases hf
    exact literal.bind fun _ => advances_pure _

/-- There is a rule to try, and a list has items that are not empty. -/
def Step.Proper : Step → Prop
  | firstOf _ refs => refs ≠ []
  | separated _ ref _ => ref ≠ .symbol ""
  | _ => True

theorem heeds_firstOf (refs : List RuleRef) (c : Cursor) :
    (∀ m ∈ ((Rule.firstOf (refs.map (RuleRef.rule span))).run c).misses,
      c.offset ≤ m.offset ∧ m.offset ≤ c.offset + c.rest.length) ∧
    (refs ≠ [] → Heeds c ((Rule.firstOf (refs.map (RuleRef.rule span))).run c)) := by
  induction refs with
  | nil => exact ⟨by simp [Rule.firstOf, Rule.fail], fun h => absurd rfl h⟩
  | cons ref refs ih =>
    have first := (ref.heeds span c).orElse ih.1
    exact ⟨first.between, fun _ => first⟩

/-- The reply of a step is at the offset of the step or behind it, and misses something if it finds nothing. -/
theorem heeds_reading {step : Step} (hp : step.Proper) {p : Rule Found} (h : step.reading span = some (offset, p)) :
    Heeds ⟨offset, span.text.slice offset span.stop⟩ (p.run ⟨offset, span.text.slice offset span.stop⟩) := by
  cases step with
  | spaces o =>
    cases h
    have composed : Composed [] False Rule.spaces ⟨offset, span.text.slice offset span.stop⟩ := .spaces _
    exact (heeds_composed composed).map (f := fun _ => Found.place)
  | endOfLine o =>
    cases h
    exact (heeds_within span (heeds_endOfLine _)).map (f := fun _ => Found.place)
  | restOfLine o =>
    cases h
    exact ⟨by simp, fun hr => nomatch hr⟩
  | symbol o spelling =>
    cases h
    exact (heeds_symbolRule span spelling _).map (f := fun _ => Found.place)
  | fail o wanted =>
    cases h
    exact heeds_missing _ (.other wanted)
  | rule o ref =>
    cases h
    exact (ref.heeds span _).map
  | firstOf o refs =>
    cases h
    exact ((heeds_firstOf span refs _).2 hp).map
  | separated o ref separator =>
    cases h
    have consumes := ref.consumes span hp
    obtain ⟨n, -, loop⟩ := exists_listLoop consumes separator [] ⟨offset, span.text.slice offset span.stop⟩
    rw [Reply.behind_nil] at loop
    exact (heeds_list consumes.advances (ref.heeds span) loop).map
  | error => cases h
  | fatal o description => cases h

theorem misses_reading {step : Step} {p : Rule Found} (h : step.reading span = some (offset, p)) :
    step.misses span = (p.run ⟨offset, span.text.slice offset span.stop⟩).misses := by
  unfold Step.misses Step.reply
  rw [h]
  rfl

/-- A step that only says what is wanted records that. -/
theorem misses_fail (wanted : String) : (Step.fail offset wanted).misses span = [⟨offset, .other wanted⟩] := rfl

/-- A literal text is recorded where it is not there, and beyond the span. -/
theorem misses_symbol (spelling : String) :
    (Step.symbol offset spelling).misses span =
      if offset ≤ span.stop ∧ spelling.toList <+: span.text.slice offset span.stop then []
      else [⟨offset, .symbol spelling⟩] := by
  let c : Cursor := ⟨offset, span.text.slice offset span.stop⟩
  show (((if offset ≤ span.stop then (literal spelling).run c else ⟨.missing, [⟨offset, .symbol spelling⟩]⟩) :
    Reply Unit).andThen fun _ => (pure Found.place : Rule Found).run).misses = _
  by_cases inside : offset ≤ span.stop
  · by_cases there : spelling.toList <+: c.rest
    · rw [if_pos inside, if_pos ⟨inside, there⟩, run_literal there]
      rfl
    · rw [if_pos inside, if_neg fun h => there h.2, run_literal_absent there]
      rfl
  · rw [if_neg inside, if_neg fun h => inside h.1]
    rfl

/-- What a step records is at its offset or behind it, and in the span. -/
theorem misses_between {step : Step} (hp : step.Proper) {p : Rule Found} (h : step.reading span = some (offset, p)) :
    ∀ m ∈ step.misses span, offset ≤ m.offset ∧ m.offset ≤ max offset span.stop := by
  rw [misses_reading span h]
  intro m hm
  have inside := (heeds_reading span hp h).between m hm
  simp only [Text.slice, List.length_drop, List.length_take] at inside
  omega

/-- A step that finds nothing records something. -/
theorem misses_of_nothing {step : Step} (hp : step.Proper) {f : Frontier} (h : (step.run span f).1 = .nothing) :
    step.misses span ≠ [] := by
  cases hr : step.reading span with
  | none =>
    unfold Step.run Step.reply at h
    rw [hr] at h
    cases step <;> cases h
  | some r =>
    have reply : (step.run span f).1 =
        .ofOutcome (r.2.run ⟨r.1, span.text.slice r.1 span.stop⟩).outcome := by
      unfold Step.run Step.reply
      rw [hr]
      rfl
    rw [misses_reading span hr]
    refine (heeds_reading span hp hr).missing ?_
    rw [reply] at h
    generalize (r.2.run ⟨r.1, span.text.slice r.1 span.stop⟩).outcome = outcome at h
    cases outcome with
    | missing => rfl
    | found v d => cases h
    | aborted cause => cases h

end Recording

/-! ## (3) A run -/

/-- The frontier after a run. -/
def ending (steps : List Step) : Frontier :=
  ((run span steps).getLast?.map Prod.snd).getD (.start span.start)

theorem runFrom_append (f : Frontier) (before after : List Step) :
    runFrom span f (before ++ after) =
      runFrom span f before ++ runFrom span (f.recordAll (before.flatMap (Step.misses span))) after := by
  induction before generalizing f with
  | nil => rfl
  | cons step before ih =>
    have next : (f.recordAll (step.misses span)).recordAll (before.flatMap (Step.misses span)) =
        f.recordAll ((step :: before).flatMap (Step.misses span)) := by
      simp [Frontier.recordAll]
    show step.run span f :: runFrom span (step.run span f).2 (before ++ after) = _
    rw [ih, step_frontier, next]
    show _ = step.run span f :: runFrom span (step.run span f).2 before ++ _
    rw [step_frontier]
    rfl

theorem length_runFrom (f : Frontier) (steps : List Step) : (runFrom span f steps).length = steps.length := by
  induction steps generalizing f with
  | nil => rfl
  | cons step steps ih => simp [runFrom, ih]

/-- The frontier after a run is that of all misses of its steps. -/
theorem ending_eq (steps : List Step) :
    ending span steps = (Frontier.start span.start).recordAll (steps.flatMap (Step.misses span)) := by
  rcases List.eq_nil_or_concat steps with rfl | ⟨before, step, rfl⟩
  · rfl
  · unfold ending run
    rw [List.concat_eq_append, runFrom_append]
    show ((_ ++ [step.run span _]).getLast?.map Prod.snd).getD _ = _
    rw [List.getLast?_concat]
    show (step.run span _).2 = _
    rw [step_frontier]
    simp [Frontier.recordAll]

/-- Whatever steps stand around it and wherever the span starts, a step has the result it has alone. -/
theorem result_alone {step : Step} (h : step ≠ .error) (before after : List Step) (start : Nat) :
    (run span (before ++ step :: after))[before.length]?.map Prod.fst =
      (run ⟨span.text, start, span.stop⟩ [step]).head?.map Prod.fst := by
  unfold run
  rw [runFrom_append, List.getElem?_append_right (Nat.le_of_eq (length_runFrom span _ before)), length_runFrom,
    Nat.sub_self]
  exact congrArg some (step_result span h _ _ start)

/-- An `error` among the steps is that of the misses before it. -/
theorem error_of_run (before after : List Step) :
    (run span (before ++ .error :: after))[before.length]?.map Prod.fst =
      some (.made (ending span before).error) := by
  unfold run
  rw [runFrom_append, List.getElem?_append_right (Nat.le_of_eq (length_runFrom span _ before)), length_runFrom,
    Nat.sub_self, ending_eq]
  rfl

theorem mem_expected (steps : List Step) (d : String) :
    d ∈ (ending span steps).expected ↔
      ∃ m ∈ steps.flatMap (Step.misses span), m.offset = (ending span steps).farthest ∧ m.wanted.describe = d := by
  have wanted (w : Wanted) : w ∈ (ending span steps).wanted ↔
      ⟨(ending span steps).farthest, w⟩ ∈ steps.flatMap (Step.misses span) := by
    rw [ending_eq, Frontier.mem_wanted_recordAll]
    simp [Frontier.start]
  rw [Frontier.expected, mem_ascending, List.mem_map]
  constructor
  · rintro ⟨w, hw, rfl⟩
    exact ⟨_, (wanted w).mp hw, rfl, rfl⟩
  · rintro ⟨⟨offset, w⟩, hm, rfl, rfl⟩
    exact ⟨w, (wanted w).mpr hm, rfl⟩

/-- Only which steps there are tells the frontier after them, not their order or how often they come. -/
theorem ending_same {steps steps' : List Step} (h : ∀ step, step ∈ steps' ↔ step ∈ steps) :
    (ending span steps').Same (ending span steps) := by
  rw [ending_eq, ending_eq]
  refine Frontier.Same.recordAll _ fun m => ?_
  simp [h]

theorem expected_of_same {f g : Frontier} (h : f.Same g) : f.expected = g.expected ∧ f.error = g.error := by
  have expected : f.expected = g.expected := by
    refine ascending_congr fun d => ?_
    rw [List.mem_map, List.mem_map]
    exact exists_congr fun w => and_congr_left fun _ => h.2 w
  refine ⟨expected, ?_⟩
  show ParseError.mk false f.farthest f.expected ("expected " ++ ParseError.anyOf f.expected) = _
  rw [expected, h.1]
  rfl

/-- Each step has the result it has alone. What is kept of all steps is the farthest of their misses, or the start of the
    span if that is farther, and what was wanted there. So the same steps in any other order and number keep the same, and
    an `error` after them is the same. -/
theorem steps_independent (steps : List Step) :
    (∀ before step after, steps = before ++ step :: after → step ≠ .error → ∀ start,
      (run span steps)[before.length]?.map Prod.fst =
        (run ⟨span.text, start, span.stop⟩ [step]).head?.map Prod.fst ∧
      step.misses ⟨span.text, start, span.stop⟩ = step.misses span) ∧
    (span.start ≤ (ending span steps).farthest ∧
      (∀ m ∈ steps.flatMap (Step.misses span), m.offset ≤ (ending span steps).farthest) ∧
      ((ending span steps).farthest = span.start ∨
        ∃ m ∈ steps.flatMap (Step.misses span), m.offset = (ending span steps).farthest)) ∧
    (∀ d, d ∈ (ending span steps).expected ↔
      ∃ m ∈ steps.flatMap (Step.misses span), m.offset = (ending span steps).farthest ∧ m.wanted.describe = d) ∧
    ((∀ m ∈ steps.flatMap (Step.misses span), m.offset < span.start) → (ending span steps).expected = []) ∧
    (run span (steps ++ [.error])).getLast?.map Prod.fst = some (.made (ending span steps).error) ∧
    ∀ steps', (∀ step, step ∈ steps' ↔ step ∈ steps) →
      (ending span steps').farthest = (ending span steps).farthest ∧
      (ending span steps').expected = (ending span steps).expected ∧
      (ending span steps').error = (ending span steps).error := by
  have farthest := (Frontier.start span.start).farthest_recordAll (steps.flatMap (Step.misses span))
  rw [← ending_eq] at farthest
  refine ⟨?_, farthest, mem_expected span steps, fun early => ?_, ?_, fun steps' h => ?_⟩
  · rintro before step after rfl hstep start
    exact ⟨result_alone span hstep before after start, misses_start span step start⟩
  · refine List.eq_nil_iff_forall_not_mem.mpr fun d hd => ?_
    obtain ⟨m, hm, hfar, -⟩ := (mem_expected span steps d).mp hd
    have := early m hm
    have := farthest.1
    simp only [Frontier.start] at this
    omega
  · have last := error_of_run span steps []
    have length : (run span (steps ++ [.error])).length = steps.length + 1 := by
      rw [run, length_runFrom, List.length_append]
      rfl
    rw [List.getLast?_eq_getElem?, length]
    exact last
  · have same := ending_same span h
    exact ⟨same.1, expected_of_same same⟩

end LineBasic.Session
