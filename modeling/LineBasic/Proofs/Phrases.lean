import LineBasic.Proofs.RoundTrip

/-
  LineBasic.Proofs.Phrases — which texts are string expressions, conditions and statements, said without a parser.

  Spaces may stand around operators and connectives, behind keywords, and around the commas of a list; no keyword needs
  any. A separator in a string expression stands right behind its fragment. An integer may have any number of digits.
  A remark takes all of its line, so that it can only be the last statement; so do the spaces at the end of a line.

  (1) The texts and their trees.
  (2) Whatever is found, the text that was read is one of them, with its tree.
-/

namespace LineBasic

namespace Spelling

/-! ## (1) Texts -/

/-- The text of an expression with integers of any length. -/
abbrev Expr : Text → Expression → Prop := Chain fun _ => True

/-- The text of an element of an array with integers of any length. -/
abbrev Indexed : Text → ArrayReference → Prop := Element fun _ => True

/-- Digits and their value. -/
def Number (w : Text) (n : Int) : Prop := Digits w ∧ n = decimalValue w

def Name (s : Text) (c : Char) : Prop := s = [c] ∧ c.isAlpha = true

inductive Fragment : Text → StringExpression → Prop
  | literal {b} : '"' ∉ b → Fragment (['"'] ++ b ++ ['"']) (.literal b)
  | tab {a w n b} : Spaces a → Number w n → Spaces b → Fragment ("TAB(".toList ++ a ++ w ++ b ++ [')']) (.tab n)
  | number {s e} : Expr s e → Fragment s (.number e)

/-- Fragments with a separator between any two. -/
inductive Body : Text → StringExpression → Prop
  | fragment {s f} : Fragment s f → Body s f
  | concat {s f a r b} : Fragment s f → Spaces a → Body r b → Body (s ++ [';'] ++ a ++ r) (.concat f b)
  | concatTab {s f a r b} : Fragment s f → Spaces a → Body r b → Body (s ++ [','] ++ a ++ r) (.concatTab f b)

/-- A body, and perhaps a separator at its end. -/
inductive Written : Text → StringExpression → Prop
  | body {s b} : Body s b → Written s b
  | trailingTab {s b} : Body s b → Written (s ++ [',']) (.trailingTab b)
  | suppressNewline {s b} : Body s b → Written (s ++ [';']) (.suppressNewline b)

inductive Compared : Text → Condition → Prop
  | compare {s l a b r e} (op : Comparison) : Expr s l → Spaces a → Spaces b → Expr r e →
      Compared (s ++ a ++ op.sign.toList ++ b ++ r) (.compare op l e)

/-- Comparisons joined by AND. -/
inductive Conjoined : Text → Condition → Prop
  | comparison {s c} : Compared s c → Conjoined s c
  | and {s c a b r d} : Compared s c → Spaces a → Spaces b → Conjoined r d →
      Conjoined (s ++ a ++ "AND".toList ++ b ++ r) (.connect .and c d)

/-- An AND joins comparisons only; an OR has a comparison on its left. -/
inductive Tested : Text → Condition → Prop
  | comparison {s c} : Compared s c → Tested s c
  | and {s c a b r d} : Compared s c → Spaces a → Spaces b → Conjoined r d →
      Tested (s ++ a ++ "AND".toList ++ b ++ r) (.connect .and c d)
  | or {s c a b r d} : Compared s c → Spaces a → Spaces b → Tested r d →
      Tested (s ++ a ++ "OR".toList ++ b ++ r) (.connect .or c d)

/-- One or more items with commas between them. -/
inductive Listed {α : Type} (item : Text → α → Prop) : Text → List α → Prop
  | one {s v} : item s v → Listed item s [v]
  | more {s v a b r vs} : item s v → Spaces a → Spaces b → Listed item r vs →
      Listed item (s ++ a ++ [','] ++ b ++ r) (v :: vs)

inductive Assigned : Text → Target → Prop
  | array {s r} : Indexed s r → Assigned s (.array r)
  | scalar {s c} : Name s c → Assigned s (.scalar c)

/-- The step of a loop, which is 1 if there is none. -/
inductive Stepped : Text → Expression → Prop
  | one : Stepped [] (.integer 1)
  | step {a b s e} : Spaces a → Spaces b → Expr s e → Stepped (a ++ "STEP".toList ++ b ++ s) e

/-- What may stand before an assignment. -/
inductive Letting : Text → Prop
  | nothing : Letting []
  | letting {a} : Spaces a → Letting ("LET".toList ++ a)

/-- The names that an operand of INPUT lists. -/
inductive Named : StringExpression → List Char → Prop
  | one {c} : Named (.number (.scalar c)) [c]
  | more {c w cs} : Named w cs → Named (.concatTab (.number (.scalar c)) w) (c :: cs)

/-- The two shapes of an operand of INPUT, with its prompt and its names. -/
inductive Operand : StringExpression → Text → List Char → Prop
  | names {w cs} : Named w cs → Operand w [] cs
  | prompted {p w cs} : Named w cs → Operand (.concat (.literal p) w) p cs

/-- One statement other than a remark. -/
inductive Single : Text → Statement → Prop
  | print {a s w} : Spaces a → Written s w → Single ("PRINT".toList ++ a ++ s) (.print w)
  | printNothing {a} : Spaces a → Single ("PRINT".toList ++ a) (.print (.literal []))
  | assign {l s t a b r e} : Letting l → Assigned s t → Spaces a → Spaces b → Expr r e →
      Single (l ++ s ++ a ++ ['='] ++ b ++ r) (.assign t e)
  | finish : Single "END".toList .finish
  | goto {a w n} : Spaces a → Number w n → Single ("GOTO".toList ++ a ++ w) (.goto n)
  | gosub {a w n} : Spaces a → Number w n → Single ("GOSUB".toList ++ a ++ w) (.gosub n)
  | ifThen {a s c b d w n} : Spaces a → Tested s c → Spaces b → Spaces d → Number w n →
      Single ("IF".toList ++ a ++ s ++ b ++ "THEN".toList ++ d ++ w) (.ifThen c n)
  | forLoop {a v c b d s i e f t j p k} : Spaces a → Name v c → Spaces b → Spaces d → Expr s i → Spaces e → Spaces f →
      Expr t j → Stepped p k →
      Single ("FOR".toList ++ a ++ v ++ b ++ ['='] ++ d ++ s ++ e ++ "TO".toList ++ f ++ t ++ p) (.forLoop c i j k)
  | nextLoop {a s cs} : Spaces a → Listed Name s cs → Single ("NEXT".toList ++ a ++ s) (.nextLoop cs)
  | input {a s w prompt names} : Spaces a → Written s w → Operand w prompt names →
      Single ("INPUT".toList ++ a ++ s) (.input prompt names)
  | returnSub : Single "RETURN".toList .returnSub
  | dim {a s arrays} : Spaces a → Listed Indexed s arrays → Single ("DIM".toList ++ a ++ s) (.dim arrays)
  | onGoto {a v c b d s ns} : Spaces a → Name v c → Spaces b → Spaces d → Listed Number s ns →
      Single ("ON".toList ++ a ++ v ++ b ++ "GOTO".toList ++ d ++ s) (.onGoto c ns)

/-- Statements with colons between them. -/
inductive Line : Text → Statement → Prop
  | remark (s) : Line ("REM".toList ++ s) .remark
  | single {s v} : Single s v → Line s v
  | sequence {s v a b r w} : Single s v → Spaces a → Spaces b → Line r w →
      Line (s ++ a ++ [':'] ++ b ++ r) (.sequence v w)

/-- All of the text but spaces at its end is a line with this tree. -/
def Reads (t : Text) (v : Statement) : Prop := ∃ s pad, t = s ++ pad ∧ Line s v ∧ Spaces pad

/-! ### String expressions by their parts -/

section Parts

variable {fits : Text → Prop} {s : Text} {b w : StringExpression}

theorem Part.fragment (h : Part fits s b) : Fragment s b := by
  cases h with
  | literal hb => exact .literal hb
  | tab ha hw _ hb => exact .tab ha ⟨hw, rfl⟩ hb
  | number he => exact .number (he.mono fun _ _ _ _ => trivial)

theorem Fragment.part (h : Fragment s b) : Part (fun _ => True) s b := by
  cases h with
  | literal hb => exact .literal hb
  | tab ha hn hb =>
    obtain ⟨hw, rfl⟩ := hn
    exact .tab ha hw trivial hb
  | number he => exact .number he

theorem Parts.body (h : Parts fits s b) : Body s b := by
  induction h with
  | part hf => exact .fragment hf.fragment
  | join separator hf ha _ ih =>
    cases separator with
    | semicolon => exact .concat hf.fragment ha ih
    | comma => exact .concatTab hf.fragment ha ih

theorem Body.parts (h : Body s b) : Parts (fun _ => True) s b := by
  induction h with
  | fragment hf => exact .part hf.part
  | concat hf ha _ ih => exact .join .semicolon hf.part ha ih
  | concatTab hf ha _ ih => exact .join .comma hf.part ha ih

theorem Parts.written (h : Parts fits s b) (d : Option Separator) :
    Written (s ++ danglingText d) (danglingTree d b) := by
  rcases d with _ | (_ | _)
  · rw [danglingText, List.append_nil]
    exact .body h.body
  · exact .suppressNewline h.body
  · exact .trailingTab h.body

theorem Written.parts (h : Written s w) : ∃ u b d, Parts (fun _ => True) u b ∧ s = u ++ danglingText d ∧
    w = danglingTree d b := by
  cases h with
  | body hb => exact ⟨_, _, none, hb.parts, by simp [danglingText], rfl⟩
  | trailingTab hb => exact ⟨_, _, some .comma, hb.parts, rfl, rfl⟩
  | suppressNewline hb => exact ⟨_, _, some .semicolon, hb.parts, rfl, rfl⟩

end Parts

end Spelling

/-! ## (2) What is found -/

namespace Grammar

open Rule Spelling

theorem sound_expr : Sound expression Expr :=
  sound_expression.mono fun _ _ h => h.mono fun _ _ _ _ => trivial

theorem sound_indexed : Sound arrayReference Indexed :=
  sound_arrayReference.mono fun _ _ h => h.mono fun _ _ _ _ => trivial

theorem sound_number : Sound integer Number := sound_integer.mono fun _ _ h => ⟨h.1, h.2.2⟩

theorem sound_name : Sound letter Name := sound_letter

theorem sound_written : Sound stringExpression Written := by
  refine sound_dangling.mono fun s w h => ?_
  obtain ⟨u, b, d, hparts, rfl, rfl⟩ := h
  exact hparts.written d

theorem sound_comparisonOperator : Sound comparisonOperator fun s op => s = op.sign.toList := by
  refine .firstOf fun p hp => ?_
  simp only [List.mem_cons, List.not_mem_nil, or_false] at hp
  rcases hp with rfl | rfl | rfl | rfl | rfl | rfl <;>
    exact (sound_literal _).bind fun s _ hs => sound_pure (by simpa [Comparison.sign] using hs)

theorem sound_compared : Sound comparison Compared := by
  refine sound_expr.bind fun s l hl => sound_spaces.bind fun a _ ha => sound_comparisonOperator.bind fun o op ho => ?_
  refine sound_spaces.bind fun b _ hb => sound_expr.bind fun r e hr => sound_pure ?_
  simpa [ho] using Compared.compare op hl ha hb hr

theorem sound_joined {op : Connective} {word : String} {left : Condition} {right : Rule Condition}
    {L : Text → Condition → Prop} (h : Sound right L) :
    Sound (joined op word left right) fun u c => ∃ a b r d, Spaces a ∧ Spaces b ∧ L r d ∧
      u = a ++ word.toList ++ b ++ r ∧ c = .connect op left d := by
  refine sound_spaces.bind fun a _ ha => (sound_literal word).bind fun p _ hp => sound_spaces.bind fun b _ hb => ?_
  refine h.bind fun r d hd => sound_pure ⟨a, b, r, d, ha, hb, hd, by simp [hp], rfl⟩

theorem sound_conjoined : Sound conjunction Conjoined := by
  refine .fix fun same h => sound_compared.bind fun s c hc => .orElse ((sound_joined h).mono fun u e hu => ?_) ?_
  · obtain ⟨a, b, r, d, ha, hb, hd, rfl, rfl⟩ := hu
    simpa using Conjoined.and hc ha hb hd
  · exact sound_pure (by simpa using Conjoined.comparison hc)

theorem sound_tested : Sound condition Tested := by
  refine .fix fun same h => sound_compared.bind fun s c hc => ?_
  refine .orElse ((sound_joined sound_conjoined).mono fun u e hu => ?_)
    (.orElse ((sound_joined h).mono fun u e hu => ?_) (sound_pure ?_))
  · obtain ⟨a, b, r, d, ha, hb, hd, rfl, rfl⟩ := hu
    simpa using Tested.and hc ha hb hd
  · obtain ⟨a, b, r, d, ha, hb, hd, rfl, rfl⟩ := hu
    simpa using Tested.or hc ha hb hd
  · simpa using Tested.comparison hc

theorem sound_listed {α : Type} {item : Rule α} {L : Text → α → Prop} (h : Sound item L) :
    Sound (separated "," item) (Listed L) := by
  have comma : Sound (do spaces; literal ","; spaces) fun u _ => ∃ a b, Spaces a ∧ Spaces b ∧ u = a ++ [','] ++ b := by
    refine sound_spaces.bind fun a _ ha => (sound_literal ",").bind fun p _ hp => sound_spaces.mono fun b _ hb => ?_
    exact ⟨a, b, ha, hb, by simp [hp]⟩
  refine .fix fun items hi => h.bind fun s v hs => comma.succeeds.bind fun u more hu => ?_
  cases more with
  | true =>
    obtain ⟨a, b, ha, hb, rfl⟩ := hu
    refine hi.bind fun r vs hr => sound_pure ?_
    simpa using Listed.more hs ha hb hr
  | false =>
    obtain rfl : u = [] := hu
    exact sound_pure (by simpa using Listed.one hs)

theorem sound_assigned : Sound target Assigned := by
  refine .orElse (sound_indexed.bind fun s r hr => sound_pure ?_)
    (.orElse (sound_name.bind fun s c hc => sound_pure ?_) sound_fail)
  · simpa using Assigned.array hr
  · simpa using Assigned.scalar hc

theorem sound_keyword (word : String) : Sound (keyword word) fun s _ => ∃ a, Spaces a ∧ s = word.toList ++ a :=
  (sound_literal word).bind fun p _ hp => sound_spaces.mono fun a _ ha => ⟨a, ha, by rw [hp]⟩

theorem sound_stepped : Sound stepClause Stepped := by
  have step : Sound (do spaces; keyword "STEP") fun u _ => ∃ a b, Spaces a ∧ Spaces b ∧ u = a ++ "STEP".toList ++ b := by
    refine sound_spaces.bind fun a _ ha => (sound_keyword "STEP").mono fun p _ hp => ?_
    obtain ⟨b, hb, rfl⟩ := hp
    exact ⟨a, b, ha, hb, by simp⟩
  refine step.succeeds.bind fun u given hu => ?_
  cases given with
  | true =>
    obtain ⟨a, b, ha, hb, rfl⟩ := hu
    exact sound_expr.mono fun s e hs => by simpa using Stepped.step ha hb hs
  | false =>
    obtain rfl : u = [] := hu
    exact sound_pure (by simpa using Stepped.one)

theorem sound_printStatement : Sound printStatement Single := by
  refine (sound_keyword "PRINT").bind fun p _ hp => ?_
  obtain ⟨a, ha, rfl⟩ := hp
  have operand : Sound (stringExpression <|> pure (.literal [])) fun s w => Written s w ∨ s = [] ∧ w = .literal [] :=
    (sound_written.mono fun _ _ h => .inl h).orElse (sound_pure (.inr ⟨rfl, rfl⟩))
  refine operand.bind fun s w hw => sound_pure ?_
  rcases hw with hw | ⟨rfl, rfl⟩
  · simpa using Single.print ha hw
  · simpa using Single.printNothing ha

theorem sound_assignStatement : Sound assignStatement Single := by
  have letting : Sound (succeeds (keyword "LET")) fun l _ => Letting l := by
    refine (sound_keyword "LET").succeeds.mono fun l given hl => ?_
    cases given with
    | true =>
      obtain ⟨a, ha, rfl⟩ := hl
      exact .letting ha
    | false =>
      obtain rfl : l = [] := hl
      exact .nothing
  refine letting.bind fun l _ hl => sound_assigned.bind fun s t ht => sound_spaces.bind fun a _ ha => ?_
  refine (sound_literal "=").bind fun p _ hp => sound_spaces.bind fun b _ hb => sound_expr.bind fun r e he => ?_
  exact sound_pure (by simpa [hp] using Single.assign hl ht ha hb he)

theorem sound_ifStatement : Sound ifStatement Single := by
  refine (sound_keyword "IF").bind fun p _ hp => sound_tested.bind fun s c hc => sound_spaces.bind fun b _ hb => ?_
  refine (sound_keyword "THEN").bind fun q _ hq => sound_number.bind fun w n hn => sound_pure ?_
  obtain ⟨a, ha, rfl⟩ := hp
  obtain ⟨d, hd, rfl⟩ := hq
  simpa using Single.ifThen ha hc hb hd hn

theorem sound_forStatement : Sound forStatement Single := by
  refine (sound_keyword "FOR").bind fun p _ hp => sound_name.bind fun v c hc => sound_spaces.bind fun b _ hb => ?_
  refine (sound_literal "=").bind fun q _ hq => sound_spaces.bind fun d _ hd => sound_expr.bind fun s i hs => ?_
  refine sound_spaces.bind fun e _ he => (sound_keyword "TO").bind fun o _ ho => sound_expr.bind fun t j ht => ?_
  refine sound_stepped.bind fun u k hk => sound_pure ?_
  obtain ⟨a, ha, rfl⟩ := hp
  obtain ⟨f, hf, rfl⟩ := ho
  simpa [hq] using Single.forLoop ha hc hb hd hs he hf ht hk

theorem inputNames?_iff {w : StringExpression} {cs : List Char} : inputNames? w = some cs ↔ Named w cs := by
  constructor
  · intro h
    fun_induction inputNames? w generalizing cs with
    | case1 c =>
      cases h
      exact .one
    | case2 c rest ih =>
      obtain ⟨others, ho, rfl⟩ := Option.map_eq_some_iff.mp h
      exact .more (ih ho)
    | case3 => cases h
  · intro h
    induction h with
    | one => rfl
    | more _ ih => rw [inputNames?, ih, Option.map_some]

theorem inputOperand?_iff {w : StringExpression} {p : Text} {cs : List Char} :
    inputOperand? w = some (p, cs) ↔ Operand w p cs := by
  constructor
  · intro h
    unfold inputOperand? at h
    split at h
    · obtain ⟨names, hn, he⟩ := Option.map_eq_some_iff.mp h
      cases he
      exact .prompted (inputNames?_iff.mp hn)
    · obtain ⟨names, hn, he⟩ := Option.map_eq_some_iff.mp h
      cases he
      exact .names (inputNames?_iff.mp hn)
  · rintro (h | h)
    · have unprompted : inputOperand? w = (inputNames? w).map fun names => ([], names) := by cases h <;> rfl
      rw [unprompted, inputNames?_iff.mpr h, Option.map_some]
    · rw [inputOperand?, inputNames?_iff.mpr h, Option.map_some]

theorem sound_inputStatement : Sound inputStatement Single := by
  refine (sound_keyword "INPUT").bind fun p _ hp => sound_here fun start => sound_written.bind fun s w hw => ?_
  obtain ⟨a, ha, rfl⟩ := hp
  split
  · rename_i prompt names h
    exact sound_pure (by simpa using Single.input ha hw (inputOperand?_iff.mp h))
  · exact fun _ _ _ h => nomatch h

theorem sound_onGotoStatement : Sound onGotoStatement Single := by
  refine (sound_keyword "ON").bind fun p _ hp => sound_name.bind fun v c hc => sound_spaces.bind fun b _ hb => ?_
  refine (sound_keyword "GOTO").bind fun q _ hq => (sound_listed sound_number).bind fun s ns hs => sound_pure ?_
  obtain ⟨a, ha, rfl⟩ := hp
  obtain ⟨d, hd, rfl⟩ := hq
  simpa using Single.onGoto ha hc hb hd hs

/-- What the rule for a keyword and what comes behind it find together. -/
theorem sound_keyworded {α : Type} {word : String} {p : Rule α} {L : Text → α → Prop} {f : α → Statement}
    (h : Sound p L) (hf : ∀ a s v, Spaces a → L s v → Single (word.toList ++ a ++ s) (f v)) :
    Sound (do keyword word; let v ← p; pure (f v)) Single := by
  refine (sound_keyword word).bind fun q _ hq => h.bind fun s v hv => sound_pure ?_
  obtain ⟨a, ha, rfl⟩ := hq
  simpa using hf a s v ha hv

theorem sound_others : ∀ p ∈ statementRules.tail, Sound p Single := by
  intro p hp
  simp only [statementRules, List.tail_cons, List.mem_cons, List.not_mem_nil, or_false] at hp
  rcases hp with rfl | rfl | rfl | rfl | rfl | rfl | rfl | rfl | rfl | rfl | rfl | rfl
  · exact sound_printStatement
  · exact sound_assignStatement
  · exact (sound_literal "END").bind fun s _ hs => sound_pure (by simpa [hs] using Single.finish)
  · exact sound_keyworded sound_number fun a w n ha hn => .goto ha hn
  · exact sound_keyworded sound_number fun a w n ha hn => .gosub ha hn
  · exact sound_ifStatement
  · exact sound_forStatement
  · exact sound_keyworded (sound_listed sound_name) fun a s cs ha hs => .nextLoop ha hs
  · exact sound_inputStatement
  · exact (sound_literal "RETURN").bind fun s _ hs => sound_pure (by simpa [hs] using Single.returnSub)
  · exact sound_keyworded (sound_listed sound_indexed) fun a s arrays ha hs => .dim ha hs
  · exact sound_onGotoStatement

theorem sound_remarkStatement {c d : Cursor} {v : Statement} (h : (remarkStatement.run c).outcome = .found v d) :
    v = .remark ∧ d.rest = [] ∧ ∃ s, c.Reads ("REM".toList ++ s) d := by
  obtain ⟨_, c₁, h₁, h⟩ := found_bind.mp h
  obtain ⟨_, c₂, h₂, h⟩ := found_bind.mp h
  cases h
  obtain ⟨p, hp, rfl⟩ := sound_literal "REM" c _ c₁ h₁
  obtain ⟨s, hs, -⟩ := sound_restOfLine c₁ _ d h₂
  cases h₂
  exact ⟨rfl, by simp [Cursor.finish, Cursor.advance], s, hp.trans hs⟩

/-- Whatever is found as a statement, the text that was read is a line. -/
theorem sound_statement : Sound statement Line := by
  refine .fix fun same hsame => ?_
  intro c v d h
  obtain ⟨first, c₁, h₁, h⟩ := found_bind.mp h
  have split : firstOf statementRules = (remarkStatement <|> firstOf statementRules.tail) := rfl
  rw [split] at h₁
  rcases found_orElse.mp h₁ with h₁ | ⟨-, h₁⟩
  · obtain ⟨rfl, hend, s, hs⟩ := sound_remarkStatement h₁
    rcases found_orElse.mp h with h | ⟨-, h⟩
    · -- Nothing is left behind a remark, so no colon was read there.
      obtain ⟨_, c₂, h₂, h⟩ := found_bind.mp h
      obtain ⟨_, c₃, h₃, -⟩ := found_bind.mp h
      obtain ⟨a, ha, -⟩ := sound_spaces _ _ _ h₂
      obtain ⟨b, hb, rfl⟩ := sound_literal _ _ _ _ h₃
      have rest : c₁.rest = a ++ (":".toList ++ c₃.rest) := by rw [ha.1, hb.1]
      rw [hend] at rest
      simp at rest
    · cases h
      exact ⟨_, hs, .remark s⟩
  · obtain ⟨s, hs, hv⟩ := Sound.firstOf sound_others c first c₁ h₁
    have tail : Sound ((do spaces; literal ":"; spaces; let rest ← same; pure (.sequence first rest)) <|> pure first)
        fun t w => Line (s ++ t) w := by
      refine .orElse ?_ (sound_pure (by simpa using Line.single hv))
      refine sound_spaces.bind fun a _ ha => (sound_literal ":").bind fun p _ hp => sound_spaces.bind fun b _ hb => ?_
      refine hsame.bind fun r w hr => sound_pure ?_
      simpa [hp] using Line.sequence hv ha hb hr
    obtain ⟨t, ht, hw⟩ := tail c₁ v d h
    exact ⟨s ++ t, hs.trans ht, hw⟩

end Grammar

end LineBasic
