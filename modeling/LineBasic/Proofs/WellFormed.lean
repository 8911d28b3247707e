import LineBasic.Proofs.Arithmetic
import LineBasic.Proofs.Decimal

/-
  LineBasic.Proofs.WellFormed — the shape of every tree that a text can have.

  Numbers are not negative and have at most 4300 digits; only a minus sign makes a -1, as the left factor of what it
  negates. Names are letters. String expressions group to the right, with at most one separator at their end. An AND
  joins comparisons only, an OR has a comparison on its left. No list is empty, and what begins a sequence is a single
  statement that leaves something of the line.

  (1) What a rule finds satisfies a property of its values (`Yields`) if what its parts find does.
  (2) Every tree that is found is well-formed.
-/

namespace LineBasic

/-! ## Well-formed trees -/

/-- A number that at most `digitLimit` decimal digits have. -/
def FitsLimit (n : Int) : Prop := ∃ m : Nat, n = m ∧ m < Nat.pow 10 Rule.digitLimit

inductive Expression.WellFormed : Expression → Prop
  | integer {n : Int} : FitsLimit n → WellFormed (.integer n)
  | real (x : Binary64) : WellFormed (.real x)
  | scalar {c : Char} : c.isAlpha = true → WellFormed (.scalar c)
  | array {c : Char} {i j k l : Expression} : c.isAlpha = true → WellFormed i → WellFormed j → WellFormed k →
      WellFormed l → WellFormed (.array c i j k l)
  | negation {e : Expression} : WellFormed e → WellFormed (.binary .multiply (.integer (-1)) e)
  | binary (op : BinaryOp) {l r : Expression} : WellFormed l → WellFormed r → WellFormed (.binary op l r)
  | call (f : BuiltIn) {e : Expression} : WellFormed e → WellFormed (.call f e)

def ArrayReference.WellFormed (a : ArrayReference) : Prop := a.expression.WellFormed

namespace StringExpression

inductive IsFragment : StringExpression → Prop
  | literal {t : Text} : '"' ∉ t → IsFragment (.literal t)
  | number {e : Expression} : e.WellFormed → IsFragment (.number e)
  | tab {n : Int} : FitsLimit n → IsFragment (.tab n)

/-- Fragments joined to the right. -/
inductive IsBody : StringExpression → Prop
  | fragment {f : StringExpression} : IsFragment f → IsBody f
  | concat {f b : StringExpression} : IsFragment f → IsBody b → IsBody (.concat f b)
  | concatTab {f b : StringExpression} : IsFragment f → IsBody b → IsBody (.concatTab f b)

/-- A body, and perhaps a separator at its end. -/
inductive WellFormed : StringExpression → Prop
  | body {b : StringExpression} : IsBody b → WellFormed b
  | trailingTab {b : StringExpression} : IsBody b → WellFormed (.trailingTab b)
  | suppressNewline {b : StringExpression} : IsBody b → WellFormed (.suppressNewline b)

end StringExpression

namespace Condition

inductive IsComparison : Condition → Prop
  | compare (op : Comparison) {l r : Expression} : l.WellFormed → r.WellFormed → IsComparison (.compare op l r)

/-- Comparisons joined by AND, to the right. -/
inductive IsConjunction : Condition → Prop
  | comparison {c : Condition} : IsComparison c → IsConjunction c
  | and {c d : Condition} : IsComparison c → IsConjunction d → IsConjunction (.connect .and c d)

inductive WellFormed : Condition → Prop
  | comparison {c : Condition} : IsComparison c → WellFormed c
  | and {c d : Condition} : IsComparison c → IsConjunction d → WellFormed (.connect .and c d)
  | or {c d : Condition} : IsComparison c → WellFormed d → WellFormed (.connect .or c d)

theorem IsConjunction.wellFormed {c : Condition} (h : c.IsConjunction) : c.WellFormed := by
  cases h with
  | comparison hc => exact .comparison hc
  | and hc hd => exact .and hc hd

end Condition

inductive Target.WellFormed : Target → Prop
  | scalar {c : Char} : c.isAlpha = true → WellFormed (.scalar c)
  | array {a : ArrayReference} : a.WellFormed → WellFormed (.array a)

/-- The members of a list that is not empty. -/
def SomeAll {α : Type} (P : α → Prop) (l : List α) : Prop := l ≠ [] ∧ ∀ a ∈ l, P a

/-- One statement after which a line can go on. -/
def Statement.IsSingle : Statement → Prop
  | remark => False
  | sequence _ _ => False
  | _ => True

inductive Statement.WellFormed : Statement → Prop
  | assign {t : Target} {e : Expression} : t.WellFormed → e.WellFormed → WellFormed (.assign t e)
  | print {s : StringExpression} : s.WellFormed → WellFormed (.print s)
  | finish : WellFormed .finish
  | goto {n : LineNumber} : FitsLimit n → WellFormed (.goto n)
  | ifThen {c : Condition} {n : LineNumber} : c.WellFormed → FitsLimit n → WellFormed (.ifThen c n)
  | forLoop {c : Char} {a b s : Expression} : c.isAlpha = true → a.WellFormed → b.WellFormed → s.WellFormed →
      WellFormed (.forLoop c a b s)
  | nextLoop {cs : List Char} : SomeAll (fun c => c.isAlpha = true) cs → WellFormed (.nextLoop cs)
  | input {p : Text} {cs : List Char} : '"' ∉ p → SomeAll (fun c => c.isAlpha = true) cs → WellFormed (.input p cs)
  | gosub {n : LineNumber} : FitsLimit n → WellFormed (.gosub n)
  | returnSub : WellFormed .returnSub
  | dim {arrays : List ArrayReference} : SomeAll ArrayReference.WellFormed arrays → WellFormed (.dim arrays)
  | remark : WellFormed .remark
  | onGoto {c : Char} {ns : List LineNumber} : c.isAlpha = true → SomeAll FitsLimit ns → WellFormed (.onGoto c ns)
  | sequence {f r : Statement} : f.WellFormed → f.IsSingle → r.WellFormed → WellFormed (.sequence f r)

theorem fitsLimit_decimalValue {w : Text} (hw : Digits w) (hl : w.length ≤ Rule.digitLimit) :
    FitsLimit (decimalValue w) := by
  have power {m n : Nat} (h : m ≤ n) : Nat.pow 10 m ≤ Nat.pow 10 n := Nat.pow_le_pow_right (by decide) h
  exact ⟨_, rfl, Nat.lt_of_lt_of_le (decimalValue_lt hw.2) (power hl)⟩

theorem not_fitsLimit_negative : ¬ FitsLimit (-1) := by
  rintro ⟨m, hm, -⟩
  omega

/-! ## (1) Properties of what is found -/

namespace Rule

variable {α β : Type} {p q : Rule α} {P : α → Prop} {Q : β → Prop}

def Yields (p : Rule α) (P : α → Prop) : Prop := ∀ c v d, (p.run c).outcome = .found v d → P v

theorem Sound.yields {L : Text → α → Prop} (h : Sound p L) (hP : ∀ s v, L s v → P v) : Yields p P := by
  intro c v d hf
  obtain ⟨s, -, hs⟩ := h c v d hf
  exact hP s v hs

theorem yields_pure {v : α} (h : P v) : Yields (pure v) P := by
  intro c w d hf
  cases hf
  exact h

theorem yields_fail : Yields (fail : Rule α) P := fun _ _ _ h => nomatch h

theorem Yields.bind {f : α → Rule β} (hp : Yields p P) (hf : ∀ v, P v → Yields (f v) Q) : Yields (p >>= f) Q := by
  intro c w e h
  obtain ⟨v, d, h1, h2⟩ := found_bind.mp h
  exact hf v (hp c v d h1) d w e h2

theorem Yields.behind {f : α → Rule β} (hf : ∀ v, Yields (f v) Q) : Yields (p >>= f) Q := by
  intro c w e h
  obtain ⟨v, d, -, h2⟩ := found_bind.mp h
  exact hf v d w e h2

theorem Yields.orElse (hp : Yields p P) (hq : Yields q P) : Yields (p <|> q) P := by
  intro c v d h
  rcases found_orElse.mp h with h | ⟨-, h⟩
  · exact hp c v d h
  · exact hq c v d h

theorem Yields.fix {body : Rule α → Rule α} (h : ∀ p, Yields p P → Yields (body p) P) : Yields (fix body) P := by
  have hr : ∀ fuel, Yields ⟨rounds body fuel⟩ P := by
    intro fuel
    induction fuel with
    | nil => exact h fail yields_fail
    | cons _ fuel ih => exact h ⟨rounds body fuel⟩ ih
  exact fun c => hr c.rest c

/-- A whole text is read as a value of the rule. -/
theorem Yields.parse (h : Yields p P) {t : Text} {v : α} (ht : p.parse t = .ok v) : P v := by
  have all : Yields p.whole P := h.bind fun v hv => .behind fun _ => .behind fun _ => yields_pure hv
  obtain ⟨d, hd⟩ := parse_eq_ok.mp ht
  exact all _ v d hd

theorem Yields.separated {separator : String} (h : Yields p P) : Yields (separated separator p) (SomeAll P) := by
  refine .fix fun items hi => h.bind fun first hfirst => .behind fun b => ?_
  split
  · refine hi.bind fun others ho => yields_pure ⟨by simp, fun a ha => ?_⟩
    rcases List.mem_cons.mp ha with rfl | ha
    · exact hfirst
    · exact ho.2 a ha
  · exact yields_pure ⟨by simp, by simpa using hfirst⟩

/-- What a choice finds, one of its alternatives finds there. -/
theorem found_firstOf {ps : List (Rule α)} {c d : Cursor} {v : α} (h : ((firstOf ps).run c).outcome = .found v d) :
    ∃ p ∈ ps, (p.run c).outcome = .found v d := by
  induction ps with
  | nil => cases h
  | cons p ps ih =>
    rcases found_orElse.mp h with h | ⟨-, h⟩
    · exact ⟨p, List.mem_cons_self, h⟩
    · obtain ⟨q, hq, h⟩ := ih h
      exact ⟨q, List.mem_cons_of_mem _ hq, h⟩

theorem yields_integer : Yields integer FitsLimit := sound_integer.yields fun s n h => by
  obtain ⟨hd, hl, rfl⟩ := h
  exact fitsLimit_decimalValue hd hl

theorem yields_letter : Yields letter fun c => c.isAlpha = true := sound_letter.yields fun _ _ h => h.2

end Rule

/-! ## (2) What is found is well-formed -/

open Spelling Grammar

namespace Spelling

theorem wellFormed_chainTree {x : Expression} {links : List Link} (hx : x.WellFormed)
    (hl : ∀ l ∈ links, l.2.WellFormed) : (chainTree x links).WellFormed := by
  induction x, links using chainTree.induct with
  | case1 x links op before y after h ihb iha =>
    have parts := loosestSplit_some h
    have hb : (chainTree x before).WellFormed := ihb hx fun l hm => hl l (by simp [parts, hm])
    have ha : (chainTree y after).WellFormed := iha (hl (op, y) (by simp [parts])) fun l hm => hl l (by simp [parts, hm])
    rw [chainTree_some h]
    exact .binary op hb ha
  | case2 x links h =>
    rw [chainTree_none h]
    exact hx

theorem wellFormed_indices {c : Char} {es : List Expression} {i j k l : Expression} (hc : c.isAlpha = true)
    (hes : ∀ e ∈ es, e.WellFormed) (hi : (es ++ List.replicate 4 (Expression.integer 0)).take 4 = [i, j, k, l]) :
    ArrayReference.WellFormed ⟨c, i, j, k, l⟩ := by
  have zero : FitsLimit (decimalValue ['0']) := fitsLimit_decimalValue (by simp [Digits]) (by simp [Rule.digitLimit])
  have four : ∀ e ∈ (es ++ List.replicate 4 (Expression.integer 0)).take 4, e.WellFormed := by
    intro e he
    rcases List.mem_append.mp (List.mem_of_mem_take he) with he | he
    · exact hes e he
    · rw [List.eq_of_mem_replicate he]
      exact .integer zero
  rw [hi] at four
  exact .array hc (four i (by simp)) (four j (by simp)) (four k (by simp)) (four l (by simp))

variable {fits : Text → Prop}

mutual

theorem Atom.wellFormed {s : Text} {e : Expression} :
    Atom fits s e → (∀ w, Digits w → fits w → FitsLimit (decimalValue w)) → e.WellFormed
  | .parenthesised _ hs _, h => hs.wellFormed h
  | .call f _ hs _, h => .call f (hs.wellFormed h)
  | .negation _ hs, h => .negation (hs.wellFormed h)
  | .real _ _, _ => .real _
  | .integer hw hl, h => .integer (h _ hw hl)
  | .scalar hc, _ => .scalar hc
  | .element hs, h => hs.wellFormed h

theorem Element.wellFormed {s : Text} {r : ArrayReference} :
    Element fits s r → (∀ w, Digits w → fits w → FitsLimit (decimalValue w)) → r.WellFormed
  | .indexed hc _ hs _ hi, h => wellFormed_indices hc (hs.wellFormed h) hi

theorem Indices.wellFormed {s : Text} {es : List Expression} :
    Indices fits s es → (∀ w, Digits w → fits w → FitsLimit (decimalValue w)) → ∀ e ∈ es, e.WellFormed
  | .none, _ => by simp
  | .last hs, h => List.forall_mem_singleton.mpr (hs.wellFormed h)
  | .more hs _ _ hr, h => List.forall_mem_cons.mpr ⟨hs.wellFormed h, hr.wellFormed h⟩

theorem Links.wellFormed {r : Text} {links : List Link} :
    Links fits r links → (∀ w, Digits w → fits w → FitsLimit (decimalValue w)) → ∀ l ∈ links, l.2.WellFormed
  | .none, _ => by simp
  | .more _ _ _ hs hr, h => List.forall_mem_cons.mpr ⟨hs.wellFormed h, hr.wellFormed h⟩

theorem Chain.wellFormed {s : Text} {e : Expression} :
    Chain fits s e → (∀ w, Digits w → fits w → FitsLimit (decimalValue w)) → e.WellFormed
  | .chain hs hr, h => wellFormed_chainTree (hs.wellFormed h) (hr.wellFormed h)

end

end Spelling

namespace Grammar

open Rule

theorem yields_expression : Yields expression Expression.WellFormed :=
  sound_expression.yields fun _ _ h => h.wellFormed fun _ hw hl => fitsLimit_decimalValue hw hl

theorem yields_arrayReference : Yields arrayReference ArrayReference.WellFormed :=
  sound_arrayReference.yields fun _ _ h => h.wellFormed fun _ hw hl => fitsLimit_decimalValue hw hl

/-! ### Strings -/

theorem yields_fragment : Yields fragment StringExpression.IsFragment := by
  intro c v d h
  obtain ⟨p, hp, h⟩ := found_firstOf h
  simp only [List.mem_cons, List.not_mem_nil, or_false] at hp
  rcases hp with rfl | rfl | rfl
  · refine Yields.bind (sound_quoted.yields fun _ _ h => h.2) (fun t ht => ?_) c v d h
    exact yields_pure (.literal ht)
  · refine Yields.behind (fun _ => .behind fun _ => yields_integer.bind fun n hn => ?_) c v d h
    exact .behind fun _ => .behind fun _ => yields_pure (.tab hn)
  · exact yields_expression.bind (fun e he => yields_pure (.number he)) c v d h

theorem yields_stringBody : Yields stringBody StringExpression.IsBody := by
  refine .fix fun body hb => yields_fragment.bind fun f hf => .orElse ?_ (.orElse ?_ (yields_pure (.fragment hf)))
  · exact .behind fun _ => .behind fun _ => hb.bind fun b hb => yields_pure (.concat hf hb)
  · exact .behind fun _ => .behind fun _ => hb.bind fun b hb => yields_pure (.concatTab hf hb)

theorem yields_stringExpression : Yields stringExpression StringExpression.WellFormed := by
  refine yields_stringBody.bind fun b hb => .orElse ?_ (.orElse ?_ (yields_pure (.body hb)))
  · exact .behind fun _ => yields_pure (.trailingTab hb)
  · exact .behind fun _ => yields_pure (.suppressNewline hb)

/-! ### Conditions -/

theorem yields_comparison : Yields comparison Condition.IsComparison :=
  yields_expression.bind fun _ hl => .behind fun _ => .behind fun op => .behind fun _ =>
    yields_expression.bind fun _ hr => yields_pure (.compare op hl hr)

theorem yields_conjunction : Yields conjunction Condition.IsConjunction := by
  refine .fix fun same hs => yields_comparison.bind fun c hc => .orElse ?_ (yields_pure (.comparison hc))
  exact .behind fun _ => .behind fun _ => .behind fun _ => hs.bind fun d hd => yields_pure (.and hc hd)

theorem yields_condition : Yields condition Condition.WellFormed := by
  refine .fix fun same hs => yields_comparison.bind fun c hc => .orElse ?_ (.orElse ?_ (yields_pure (.comparison hc)))
  · exact .behind fun _ => .behind fun _ => .behind fun _ => yields_conjunction.bind fun d hd => yields_pure (.and hc hd)
  · exact .behind fun _ => .behind fun _ => .behind fun _ => hs.bind fun d hd => yields_pure (.or hc hd)

/-! ### Statements -/

/-- A single statement that a line can go on after. -/
def Going (s : Statement) : Prop := s.WellFormed ∧ s.IsSingle

theorem yields_target : Yields target Target.WellFormed := by
  intro c v d h
  obtain ⟨p, hp, h⟩ := found_firstOf h
  simp only [List.mem_cons, List.not_mem_nil, or_false] at hp
  rcases hp with rfl | rfl
  · exact yields_arrayReference.bind (fun _ ha => yields_pure (.array ha)) c v d h
  · exact yields_letter.bind (fun _ hc => yields_pure (.scalar hc)) c v d h

theorem yields_printStatement : Yields printStatement Going := by
  have operand : Yields (stringExpression <|> pure (.literal [])) StringExpression.WellFormed :=
    yields_stringExpression.orElse (yields_pure (.body (.fragment (.literal (by simp)))))
  exact .behind fun _ => operand.bind fun s hs => yields_pure ⟨.print hs, trivial⟩

theorem yields_assignStatement : Yields assignStatement Going := by
  refine .behind fun _ => yields_target.bind fun t ht => .behind fun _ => .behind fun _ => .behind fun _ => ?_
  exact yields_expression.bind fun e he => yields_pure ⟨.assign ht he, trivial⟩

theorem yields_ifStatement : Yields ifStatement Going := by
  refine .behind fun _ => yields_condition.bind fun test ht => .behind fun _ => .behind fun _ => ?_
  exact yields_integer.bind fun n hn => yields_pure ⟨.ifThen ht hn, trivial⟩

theorem yields_forStatement : Yields forStatement Going := by
  have step : Yields stepClause Expression.WellFormed := by
    refine .behind fun b => ?_
    split
    · exact yields_expression
    · exact yields_pure (.integer (fitsLimit_decimalValue (w := ['1']) (by simp [Digits]) (by simp [digitLimit])))
  refine .behind fun _ => yields_letter.bind fun c hc => .behind fun _ => .behind fun _ => .behind fun _ => ?_
  refine yields_expression.bind fun a ha => .behind fun _ => .behind fun _ => yields_expression.bind fun b hb => ?_
  exact step.bind fun s hs => yields_pure ⟨.forLoop hc ha hb hs, trivial⟩

theorem inputNames?_some {s : StringExpression} (hs : s.WellFormed) {names : List Char} (h : inputNames? s = some names) :
    SomeAll (fun c => c.isAlpha = true) names := by
  have scalar : ∀ c, StringExpression.IsFragment (.number (.scalar c)) → c.isAlpha = true := by
    intro c hf
    cases hf with
    | number he =>
      cases he with
      | scalar hc => exact hc
  fun_induction inputNames? s generalizing names with
  | case1 c =>
    cases h
    cases hs with
    | body hb =>
      cases hb with
      | fragment hf => exact ⟨by simp, by simpa using scalar c hf⟩
  | case2 c rest ih =>
    obtain ⟨others, ho, rfl⟩ := Option.map_eq_some_iff.mp h
    cases hs with
    | body hb =>
      cases hb with
      | fragment hf => cases hf
      | concatTab hf hb =>
        have := (ih (.body hb) ho).2
        exact ⟨by simp, by simpa using ⟨scalar c hf, this⟩⟩
  | case3 => cases h

theorem inputOperand?_some {s : StringExpression} (hs : s.WellFormed) {prompt : Text} {names : List Char}
    (h : inputOperand? s = some (prompt, names)) : '"' ∉ prompt ∧ SomeAll (fun c => c.isAlpha = true) names := by
  unfold inputOperand? at h
  split at h
  · rename_i text rest
    obtain ⟨read, hr, he⟩ := Option.map_eq_some_iff.mp h
    cases he
    cases hs with
    | body hb =>
      cases hb with
      | fragment hf => cases hf
      | concat hf hb =>
        cases hf with
        | literal ht => exact ⟨ht, inputNames?_some (.body hb) hr⟩
  · obtain ⟨read, hr, he⟩ := Option.map_eq_some_iff.mp h
    cases he
    exact ⟨by simp, inputNames?_some hs hr⟩

theorem yields_inputStatement : Yields inputStatement Going := by
  refine .behind fun _ => .behind fun start => yields_stringExpression.bind fun s hs => ?_
  split
  · rename_i prompt names h
    obtain ⟨hp, hn⟩ := inputOperand?_some hs h
    exact yields_pure ⟨.input hp hn, trivial⟩
  · exact fun _ _ _ h => nomatch h

/-- Only a remark leaves nothing of its line. -/
theorem found_single {c d : Cursor} {s : Statement} (h : ((firstOf statementRules).run c).outcome = .found s d) :
    Going s ∨ s = .remark ∧ d.rest = [] := by
  obtain ⟨p, hp, h⟩ := found_firstOf h
  simp only [statementRules, List.mem_cons, List.not_mem_nil, or_false] at hp
  rcases hp with rfl | rfl | rfl | rfl | rfl | rfl | rfl | rfl | rfl | rfl | rfl | rfl | rfl
  · right
    obtain ⟨_, c', -, h⟩ := found_bind.mp h
    obtain ⟨_, d', hd, h⟩ := found_bind.mp h
    cases hd
    cases h
    simp [Cursor.finish, Cursor.advance]
  · exact .inl (yields_printStatement c s d h)
  · exact .inl (yields_assignStatement c s d h)
  · exact .inl (Yields.behind (fun _ => yields_pure ⟨.finish, trivial⟩) c s d h)
  · exact .inl (Yields.behind (fun _ => yields_integer.bind fun n hn => yields_pure ⟨.goto hn, trivial⟩) c s d h)
  · exact .inl (Yields.behind (fun _ => yields_integer.bind fun n hn => yields_pure ⟨.gosub hn, trivial⟩) c s d h)
  · exact .inl (yields_ifStatement c s d h)
  · exact .inl (yields_forStatement c s d h)
  · refine .inl (Yields.behind (fun _ => yields_letter.separated.bind fun _ hc => ?_) c s d h)
    exact yields_pure ⟨.nextLoop hc, trivial⟩
  · exact .inl (yields_inputStatement c s d h)
  · exact .inl (Yields.behind (fun _ => yields_pure ⟨.returnSub, trivial⟩) c s d h)
  · refine .inl (Yields.behind (fun _ => yields_arrayReference.separated.bind fun _ ha => ?_) c s d h)
    exact yields_pure ⟨.dim ha, trivial⟩
  · refine .inl (Yields.behind (fun _ => yields_letter.bind fun v hv => .behind fun _ => .behind fun _ => ?_) c s d h)
    exact yields_integer.separated.bind fun _ hn => yields_pure ⟨.onGoto hv hn, trivial⟩

theorem yields_statement : Yields statement Statement.WellFormed := by
  refine .fix fun same hsame => ?_
  intro c s d h
  obtain ⟨first, c₁, hfirst, h⟩ := found_bind.mp h
  rcases found_orElse.mp h with h | ⟨-, h⟩
  · obtain ⟨_, c₂, hspaces, h⟩ := found_bind.mp h
    obtain ⟨_, c₃, hcolon, h⟩ := found_bind.mp h
    rcases found_single hfirst with ⟨hwf, hsingle⟩ | ⟨rfl, hend⟩
    · exact Yields.behind (fun _ => hsame.bind fun _ hr => yields_pure (.sequence hwf hsingle hr)) c₃ s d h
    · -- Nothing is left behind a remark, so no colon was read there.
      obtain ⟨a, ha, -⟩ := sound_spaces _ _ _ hspaces
      obtain ⟨b, hb, rfl⟩ := sound_literal _ _ _ _ hcolon
      have rest : c₁.rest = a ++ (":".toList ++ c₃.rest) := by rw [ha.1, hb.1]
      rw [hend] at rest
      simp at rest
  · cases h
    rcases found_single hfirst with ⟨hwf, -⟩ | ⟨rfl, -⟩
    · exact hwf
    · exact .remark

end Grammar

end LineBasic
