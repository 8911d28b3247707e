import LineBasic.Proofs.Causes
import LineBasic.Proofs.Equations
import LineBasic.Proofs.Phrases

/-
  LineBasic.Proofs.Progress — every rule that has a name reads on, stays in its span, and ends.

  (1) What such a rule finds, it finds behind at least one character (`RuleName.consumes`), as no text that has a tree is
      empty.
  (2) A list is read by a loop that turns as long as there is a separator. Here the loop is written as it runs
      (`ListLoop`) and not in rounds. Where every item consumes something it ends, whatever the separator is, the empty
      one included, and it reads no more items than there are characters ahead (`exists_listLoop`).
  (3) A rule that has a name is the one that enough rounds of the equations of the grammar make, whatever rules these
      begin with, so its recursion ends, too. With the bounds of its misses this is `RuleName.progress`.
-/

namespace LineBasic

variable {α β : Type}

/-! ## (1) At least one character -/

namespace Spelling

variable {fits : Text → Prop} {s : Text}

theorem Element.ne_nil {r : ArrayReference} (h : Element fits s r) : s ≠ [] := by
  cases h with
  | indexed => simp

theorem Atom.ne_nil {e : Expression} (h : Atom fits s e) : s ≠ [] := by
  cases h with
  | integer hw _ => exact hw.1
  | element hs => exact hs.ne_nil
  | _ => simp

theorem Chain.ne_nil {e : Expression} (h : Chain fits s e) : s ≠ [] := by
  cases h with
  | chain hs _ => exact List.append_ne_nil_of_left_ne_nil hs.ne_nil _

theorem Fragment.ne_nil {f : StringExpression} (h : Fragment s f) : s ≠ [] := by
  cases h with
  | number he => exact he.ne_nil
  | _ => simp

theorem Body.ne_nil {b : StringExpression} (h : Body s b) : s ≠ [] := by
  cases h with
  | fragment hf => exact hf.ne_nil
  | _ => simp

theorem Written.ne_nil {w : StringExpression} (h : Written s w) : s ≠ [] := by
  cases h with
  | body hb => exact hb.ne_nil
  | _ => simp

theorem Tested.ne_nil {c : Condition} (h : Tested s c) : s ≠ [] := by
  cases h with
  | comparison hc =>
    cases hc with
    | compare op => cases op <;> simp [Comparison.sign]
  | _ => simp

theorem Single.ne_nil {v : Statement} (h : Single s v) : s ≠ [] := by
  cases h <;> simp

theorem Line.ne_nil {v : Statement} (h : Line s v) : s ≠ [] := by
  cases h with
  | single hs => exact hs.ne_nil
  | _ => simp

end Spelling

namespace Rule

variable {p item : Rule α} {f : α → Rule β} {c d : Cursor} {v : α}

/-- What the rule finds, it finds behind at least one character. -/
def Consumes (p : Rule α) : Prop := Sound p fun s _ => s ≠ []

theorem Consumes.bind (h : Consumes p) (hf : ∀ v, Advances (f v)) : Consumes (p >>= f) :=
  Sound.bind h fun _ v hs => (hf v).sound.mono fun t _ _ => List.append_ne_nil_of_left_ne_nil hs t

theorem Consumes.fewer (h : Consumes p) (hf : (p.run c).outcome = .found v d) : d.rest.length < c.rest.length := by
  obtain ⟨s, hs, hne⟩ := h c v d hf
  have hlen := congrArg List.length hs.1
  have hpos := List.length_pos_iff.mpr hne
  rw [List.length_append] at hlen
  omega

/-- The offset behind what is found is larger than before, and still in the span. -/
theorem Consumes.within {text : Text} {pos stop : Nat} (h : Consumes p)
    (hf : (p.run ⟨pos, text.slice pos stop⟩).outcome = .found v d) :
    pos < d.offset ∧ d.offset ≤ stop ∧ d.rest = text.slice d.offset stop := by
  obtain ⟨s, hs, hne⟩ := h _ v d hf
  have hpos := List.length_pos_iff.mpr hne
  have hlen := congrArg List.length hs.1
  have place : d.offset = pos + s.length := hs.2
  simp only [Text.slice, List.length_append, List.length_drop, List.length_take] at hlen
  exact ⟨by omega, by omega, (Text.slice_behind hs).symm⟩

end Rule

open Rule Grammar Spelling

theorem RuleName.consumes (name : RuleName) : Consumes name.rule := by
  have named {α : Type} {p : Rule α} {f : α → Value} (h : Consumes p) : Consumes (do let v ← p; pure (f v)) :=
    h.bind fun v => advances_pure (f v)
  have variableName : Consumes Rule.letter := sound_name.mono fun s c h => by
    rw [h.1]
    simp
  cases name with
  | integer => exact named (sound_number.mono fun _ _ h => h.1.1)
  | real => exact named (sound_real.mono fun s x h => by
      obtain ⟨w, f, -, -, rfl, -⟩ := h
      simp)
  | letter => exact named variableName
  | quoted => exact named (sound_quoted.mono fun s v h => by
      rw [h.1]
      simp)
  | expression => exact named (sound_expr.mono fun _ _ h => h.ne_nil)
  | arrayReference => exact named (sound_indexed.mono fun _ _ h => h.ne_nil)
  | variableReference => exact named variableName
  | stringExpression => exact named (sound_written.mono fun _ _ h => h.ne_nil)
  | stringBody => exact named (sound_parts.mono fun _ _ h => h.body.ne_nil)
  | condition => exact named (sound_tested.mono fun _ _ h => h.ne_nil)
  | statement => exact named (sound_statement.mono fun _ _ h => h.ne_nil)

/-! ## (2) Lists -/

/-- The reply with earlier items before those that it finds. -/
def Reply.behind (earlier : List α) (r : Reply (List α)) : Reply (List α) :=
  r.andThen fun vs d => ⟨.found (earlier ++ vs) d, []⟩

section

variable {earlier earlier' : List α} {misses : List Miss} {r : Reply (List α)}

theorem Reply.behind_nil : r.behind [] = r := by
  obtain ⟨outcome, misses⟩ := r
  cases outcome <;> simp [Reply.behind, Reply.andThen, Reply.after]

theorem Reply.behind_after : (r.after misses).behind earlier = (r.behind earlier).after misses := by
  obtain ⟨outcome, misses⟩ := r
  cases outcome <;> simp [Reply.behind, Reply.andThen, Reply.after]

theorem Reply.behind_behind : (r.behind earlier').behind earlier = r.behind (earlier ++ earlier') := by
  obtain ⟨outcome, misses⟩ := r
  cases outcome <;> simp [Reply.behind, Reply.andThen, Reply.after]

end

namespace Rule

variable {separator : String} {item : Rule α} {items : Rule (List α)} {earlier : List α} {c d e : Cursor} {v : α}
variable {n : Nat} {r : Reply (List α)}

/-- With the items `earlier` read already, the loop reads `n` more from `c` on, and then it ends with the reply `r`. -/
inductive ListLoop (separator : String) (item : Rule α) : List α → Cursor → Nat → Reply (List α) → Prop
  /-- There is no item, neither the first one nor one behind a separator. -/
  | missing {earlier : List α} {c : Cursor} : (item.run c).outcome = .missing →
      ListLoop separator item earlier c 0 ⟨.missing, (item.run c).misses⟩
  | aborted {earlier : List α} {c : Cursor} {cause : Abort} : (item.run c).outcome = .aborted cause →
      ListLoop separator item earlier c 0 ⟨.aborted cause, (item.run c).misses⟩
  /-- There is no separator behind the item. -/
  | last {earlier : List α} {c d : Cursor} {v : α} : (item.run c).outcome = .found v d →
      ((between separator).run d).outcome = .missing →
      ListLoop separator item earlier c 1
        ⟨.found (earlier ++ [v]) d, (item.run c).misses ++ ((between separator).run d).misses⟩
  | turn {earlier : List α} {c d e : Cursor} {v : α} {n : Nat} {r : Reply (List α)} :
      (item.run c).outcome = .found v d → ((between separator).run d).outcome = .found () e →
      ListLoop separator item (earlier ++ [v]) e n r →
      ListLoop separator item earlier c (n + 1)
        (r.after ((item.run c).misses ++ ((between separator).run d).misses))

/-- All items that the loop has read are found. -/
theorem ListLoop.length (h : ListLoop separator item earlier c n r) {vs : List α}
    (hf : r.outcome = .found vs d) : vs.length = earlier.length + n := by
  induction h with
  | missing _ => cases hf
  | aborted _ => cases hf
  | last _ _ =>
    cases hf
    simp
  | turn _ _ _ ih =>
    have all := ih hf
    rw [List.length_append, List.length_singleton] at all
    omega

theorem run_succeeds_found {p : Rule Unit} (h : (p.run c).outcome = .found () d) :
    (succeeds p).run c = ⟨.found true d, (p.run c).misses⟩ := by
  have there : (p >>= fun _ => pure true).run c = ⟨.found true d, (p.run c).misses⟩ := by
    rw [run_bind_found h]
    simp [Reply.after]
  rw [succeeds, run_orElse, there]
  rfl

theorem run_succeeds_missing {p : Rule Unit} (h : (p.run c).outcome = .missing) :
    (succeeds p).run c = ⟨.found false c, (p.run c).misses⟩ := by
  have absent : (p >>= fun _ => pure true).run c = ⟨.missing, (p.run c).misses⟩ := run_bind_missing h
  rw [succeeds, run_orElse, absent]
  simp [Reply.orTry, Reply.after]

theorem between_not_aborted {cause : Abort} : ((between separator).run c).outcome ≠ .aborted cause := by
  intro h
  rcases aborted_bind.mp h with h | ⟨_, d, -, h⟩
  · cases h
  · rcases aborted_bind.mp h with h | ⟨_, e, -, h⟩
    · exact lexeme_not_aborted h
    · cases h

/-- Behind an item without a separator the list is at its end. -/
theorem run_listOf_last (hi : (item.run c).outcome = .found v d)
    (hs : ((between separator).run d).outcome = .missing) :
    (listOf separator item items).run c =
      ⟨.found [v] d, (item.run c).misses ++ ((between separator).run d).misses⟩ := by
  unfold listOf
  rw [run_bind_found hi, run_bind_found (congrArg Reply.outcome (run_succeeds_missing hs)), run_succeeds_missing hs]
  simp [Reply.after]

/-- Behind a separator come the others. -/
theorem run_listOf_turn (hi : (item.run c).outcome = .found v d)
    (hs : ((between separator).run d).outcome = .found () e) :
    (listOf separator item items).run c =
      ((items.run e).behind [v]).after ((item.run c).misses ++ ((between separator).run d).misses) := by
  unfold listOf
  rw [run_bind_found hi, run_bind_found (congrArg Reply.outcome (run_succeeds_found hs)), run_succeeds_found hs]
  show (((items.run e).behind [v]).after _).after _ = _
  simp [Reply.after]

theorem separated_eq_listOf (h : Consumes item) (separator : String) :
    separated separator item = listOf separator item (separated separator item) :=
  fix_eq (guarded_listOf h fun _ _ hs => List.append_ne_nil_of_left_ne_nil hs _)

theorem exists_listLoop (h : Consumes item) (separator : String) (earlier : List α) (c : Cursor) :
    ∃ n, n ≤ c.rest.length ∧
      ListLoop separator item earlier c n (((separated separator item).run c).behind earlier) := by
  -- The loop carries the items that it has read, so they vary. With every turn fewer characters are ahead.
  induction hl : c.rest.length using Nat.strongRecOn generalizing earlier c with
  | ind l ih =>
    rw [separated_eq_listOf h]
    cases hi : (item.run c).outcome with
    | missing =>
      have reply : (listOf separator item (separated separator item)).run c = ⟨.missing, (item.run c).misses⟩ :=
        run_bind_missing hi
      rw [reply]
      exact ⟨0, Nat.zero_le _, .missing hi⟩
    | aborted cause =>
      have reply : (listOf separator item (separated separator item)).run c = ⟨.aborted cause, (item.run c).misses⟩ :=
        run_bind_aborted hi
      rw [reply]
      exact ⟨0, Nat.zero_le _, .aborted hi⟩
    | found v d =>
      have fewer := h.fewer hi
      cases hs : ((between separator).run d).outcome with
      | aborted cause => exact absurd hs between_not_aborted
      | missing =>
        have ends : ListLoop separator item earlier c 1 _ := .last hi hs
        rw [run_listOf_last hi hs]
        exact ⟨1, by omega, by simpa [Reply.behind, Reply.andThen, Reply.after] using ends⟩
      | found _ e =>
        have behind : e.rest.length ≤ d.rest.length := (sound_separator separator).advances.length_le hs
        obtain ⟨n, hn, hloop⟩ := ih e.rest.length (by omega) (earlier ++ [v]) e rfl
        rw [run_listOf_turn hi hs, Reply.behind_after, Reply.behind_behind]
        exact ⟨n + 1, by omega, .turn hi hs hloop⟩

/-- A list of items that consume something consumes something itself. -/
theorem Consumes.separated (h : Consumes item) (separator : String) : Consumes (separated separator item) := by
  refine Sound.fix fun items hi => Consumes.bind h fun first => ?_
  refine (sound_separator separator).succeeds.advances.bind fun more => ?_
  split
  · exact (Sound.advances hi).bind fun _ => advances_pure _
  · exact advances_pure _

end Rule

/-! ## (3) Rules that have a name -/

/-- The rule that has the name, where the rules of the grammar are `r`. -/
def RuleName.ruleOf (r : Rules) : RuleName → Rule Value
  | expression => do let e ← r .expression; pure (.tree (.expression e))
  | arrayReference => do let a ← r .arrayReference; pure (.tree (.expression a.expression))
  | stringExpression => do let s ← r .stringExpression; pure (.tree (.string s))
  | stringBody => do let s ← r .stringBody; pure (.tree (.string s))
  | condition => do let c ← r .condition; pure (.tree (.condition c))
  | statement => do let s ← r .statement; pure (.tree (.statement s))
  | name => name.rule

theorem RuleName.run_ruleOf (name : RuleName) (r : Rules) {c : Cursor} {n : Nat} (h : 5 * (c.rest.length + 1) ≤ n) :
    (name.ruleOf (equations^[n] r)).run c = name.rule.run c := by
  have named {k : Nonterminal} {f : k.Tree → Value} :
      (do let v ← equations^[n] r k; pure (f v) : Rule Value).run c = (do let v ← rules k; pure (f v) : Rule Value).run c := by
    rw [run_bind, run_bind, run_iterate_equations r k h]
  cases name with
  | expression => exact named (k := .expression)
  | arrayReference => exact named (k := .arrayReference)
  | stringExpression => exact named (k := .stringExpression)
  | stringBody => exact named (k := .stringBody)
  | condition => exact named (k := .condition)
  | statement => exact named (k := .statement)
  | _ => rfl

/-- At every offset of a span, a rule that has a name ends. If it finds something, the offset behind that is a later one
    in the span, and what it misses it misses in the span and not before the offset. Its recursion is at most five deep for
    every character ahead and five more: so many rounds of the equations of its sort make its reply, whatever rules stand in
    place of the calls behind them. A list of such items ends as well, with any separator, and with at most one item for
    every character ahead. -/
theorem RuleName.progress (name : RuleName) (text : Text) (pos stop : Nat) :
    let c : Cursor := ⟨pos, text.slice pos stop⟩
    (∀ v d, (name.rule.run c).outcome = .found v d →
      pos < d.offset ∧ d.offset ≤ stop ∧ d.rest = text.slice d.offset stop) ∧
    (pos ≤ stop → ∀ m ∈ (name.rule.run c).misses, pos ≤ m.offset ∧ m.offset ≤ stop) ∧
    (∀ (r : Rules) (n : Nat), 5 * (stop - pos + 1) ≤ n →
      (name.ruleOf (equations^[n] r)).run c = name.rule.run c) ∧
    ∀ separator, ∃ n, n ≤ stop - pos ∧
      ListLoop separator name.rule [] c n ((separated separator name.rule).run c) ∧
      ∀ vs d, ((separated separator name.rule).run c).outcome = .found vs d →
        vs.length = n ∧ pos < d.offset ∧ d.offset ≤ stop ∧ d.rest = text.slice d.offset stop := by
  intro c
  have ahead : c.rest.length ≤ stop - pos := by
    show (text.slice pos stop).length ≤ stop - pos
    simp only [Text.slice, List.length_drop, List.length_take]
    omega
  refine ⟨fun v d hf => name.consumes.within hf, fun hle m hm => ?_, fun r n hn => name.run_ruleOf r (by omega), ?_⟩
  · obtain ⟨hstart, hstop⟩ := (name.composed c).attentive.between hm
    have inside : pos + c.rest.length ≤ stop := by omega
    exact ⟨hstart, Nat.le_trans hstop inside⟩
  · intro separator
    obtain ⟨n, hn, hloop⟩ := exists_listLoop name.consumes separator [] c
    rw [Reply.behind_nil] at hloop
    refine ⟨n, Nat.le_trans hn ahead, hloop, fun vs d hf => ?_⟩
    have all := hloop.length hf
    rw [List.length_nil, Nat.zero_add] at all
    exact ⟨all, (name.consumes.separated separator).within hf⟩

/-- A `PRINT` of nothing before a remark, read to the end of its span. Two integers are a list with a comma between them,
    but not where nothing separates them: behind the last one the empty separator is there again, and no integer is. -/
theorem RuleName.progress_bare :
    ((RuleName.statement.rule.run ⟨3, Text.slice "10 PRINT:REM A".toList 3 14⟩).outcome =
        .found (.tree (.statement (.sequence (.print (.literal [])) .remark))) ⟨14, []⟩ ∧ 3 < 14 ∧ 14 ≤ 14) ∧
      (3 ≤ 14 ∧ ∀ m ∈ (RuleName.statement.rule.run ⟨3, Text.slice "10 PRINT:REM A".toList 3 14⟩).misses,
        3 ≤ m.offset ∧ m.offset ≤ 14) ∧
      (∀ r : Rules, (RuleName.statement.ruleOf (equations^[60] r)).run ⟨3, Text.slice "10 PRINT:REM A".toList 3 14⟩ =
        RuleName.statement.rule.run ⟨3, Text.slice "10 PRINT:REM A".toList 3 14⟩) ∧
      (∃ n, n ≤ 6 ∧ ([.integer 12, .integer 34] : List Value).length = n ∧ 0 < 6 ∧ 6 ≤ 6 ∧
        ListLoop "," RuleName.integer.rule [] ⟨0, Text.slice "12, 34".toList 0 6⟩ n
          ((separated "," RuleName.integer.rule).run ⟨0, Text.slice "12, 34".toList 0 6⟩)) ∧
      ((separated "" RuleName.integer.rule).run ⟨0, Text.slice "12 34".toList 0 5⟩).outcome = .missing ∧
      ∃ n, n ≤ 5 ∧ ListLoop "" RuleName.integer.rule [] ⟨0, Text.slice "12 34".toList 0 5⟩ n
        ((separated "" RuleName.integer.rule).run ⟨0, Text.slice "12 34".toList 0 5⟩) := by
  obtain ⟨later, missed, rounds, -⟩ := RuleName.progress .statement "10 PRINT:REM A".toList 3 14
  obtain ⟨-, -, -, listed⟩ := RuleName.progress .integer "12, 34".toList 0 6
  obtain ⟨-, -, -, adjoined⟩ := RuleName.progress .integer "12 34".toList 0 5
  have sequence : (RuleName.statement.rule.run ⟨3, Text.slice "10 PRINT:REM A".toList 3 14⟩).outcome =
      .found (.tree (.statement (.sequence (.print (.literal [])) .remark))) ⟨14, []⟩ := by rfl
  have pair : ((separated "," RuleName.integer.rule).run ⟨0, Text.slice "12, 34".toList 0 6⟩).outcome =
      .found [.integer 12, .integer 34] ⟨6, []⟩ := by decide
  have dangling : ((separated "" RuleName.integer.rule).run ⟨0, Text.slice "12 34".toList 0 5⟩).outcome = .missing := by
    decide
  obtain ⟨start, stop, -⟩ := later _ _ sequence
  obtain ⟨n, few, loop, full⟩ := listed ","
  obtain ⟨all, behind, within, -⟩ := full _ _ pair
  obtain ⟨k, fewer, turns, -⟩ := adjoined ""
  exact ⟨⟨sequence, start, stop⟩, ⟨by decide, missed (by decide)⟩, fun r => rounds r 60 (by decide),
    ⟨n, few, all, behind, within, loop⟩, dangling, k, fewer, turns⟩

end LineBasic
