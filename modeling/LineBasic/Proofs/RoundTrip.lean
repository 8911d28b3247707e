import LineBasic.Grammar.Reading
import LineBasic.Proofs.Rendering

/-
  LineBasic.Proofs.RoundTrip — well-formed statements are the trees of texts, and what is written for one is read as it.

  A statement is known by its keyword: no two keywords go on from a common beginning, so where one stands no other rule
  finds anything, an assignment without its keyword included (`takes_by_keyword`).
-/

namespace LineBasic

/-! ## Texts for trees -/

def Comparison.sign : Comparison → String
  | equal => "="
  | notEqual => "<>"
  | less => "<"
  | greater => ">"
  | lessOrEqual => "<="
  | greaterOrEqual => ">="

def Connective.keyword : Connective → String
  | and => "AND"
  | or => "OR"

def Condition.render : Condition → Text
  | compare op l r => l.render ++ op.sign.toList ++ r.render
  | connect op l r => l.render ++ [' '] ++ op.keyword.toList ++ [' '] ++ r.render

def Target.render (t : Target) : Text := t.expression.render

def Statement.render : Statement → Text
  | assign t e => "LET".toList ++ ' ' :: (t.render ++ ['='] ++ e.render)
  | print s => "PRINT".toList ++ ' ' :: s.render
  | finish => "END".toList
  | goto n => "GOTO".toList ++ ' ' :: numeral n
  | ifThen c n => "IF".toList ++ ' ' :: (c.render ++ " THEN ".toList ++ numeral n)
  | forLoop c a b s =>
    "FOR".toList ++ ' ' :: ([c, '='] ++ a.render ++ " TO ".toList ++ b.render ++ " STEP ".toList ++ s.render)
  | nextLoop cs => "NEXT".toList ++ ' ' :: listed (cs.map fun c => [c])
  | input p cs => "INPUT".toList ++ ' ' :: (['"'] ++ p ++ ['"', ';'] ++ listed (cs.map fun c => [c]))
  | gosub n => "GOSUB".toList ++ ' ' :: numeral n
  | returnSub => "RETURN".toList
  | dim arrays => "DIM".toList ++ ' ' :: listed (arrays.map fun a => a.expression.render)
  | remark => "REM".toList
  | onGoto c ns => "ON".toList ++ ' ' :: ([c] ++ " GOTO ".toList ++ listed (ns.map numeral))
  | sequence f r => f.render ++ " : ".toList ++ r.render

namespace Grammar

open Rule Spelling

/-! ## Conditions -/

theorem takes_comparisonOperator (op : Comparison) {k : Text} (hg : k.head? ≠ some '>') (he : k.head? ≠ some '=') :
    Takes False comparisonOperator op.sign.toList op k := by
  have long {c d : Char} {spelling : String} (hs : spelling.toList = [c, d]) (hk : k.head? ≠ some d) :
      Skips False (literal spelling) (c :: k) := by
    refine skips_literal ?_
    rw [hs]
    cases k with
    | nil => simp [List.isPrefixOf]
    | cons e k =>
      have : ¬ d = e := fun hde => hk (by simp [hde])
      simp [List.isPrefixOf, this]
  cases op with
  | notEqual => exact .orElse ((takes_literal _).bind_nil takes_pure)
  | lessOrEqual =>
    refine Skips.orElse_takes (skips_literal rfl).bind ?_
    exact .orElse ((takes_literal _).bind_nil takes_pure)
  | greaterOrEqual =>
    refine Skips.orElse_takes (skips_literal rfl).bind (Skips.orElse_takes (skips_literal rfl).bind ?_)
    exact .orElse ((takes_literal _).bind_nil takes_pure)
  | equal =>
    refine Skips.orElse_takes (skips_literal rfl).bind (Skips.orElse_takes (skips_literal rfl).bind ?_)
    refine Skips.orElse_takes (skips_literal rfl).bind ?_
    exact .orElse ((takes_literal _).bind_nil takes_pure)
  | less =>
    refine Skips.orElse_takes (long (c := '<') (d := '>') rfl hg).bind ?_
    refine Skips.orElse_takes (long (c := '<') (d := '=') rfl he).bind ?_
    refine Skips.orElse_takes (skips_literal rfl).bind (Skips.orElse_takes (skips_literal rfl).bind ?_)
    exact .orElse ((takes_literal _).bind_nil takes_pure)
  | greater =>
    refine Skips.orElse_takes (skips_literal rfl).bind (Skips.orElse_takes (skips_literal rfl).bind ?_)
    refine Skips.orElse_takes (long (c := '>') (d := '=') rfl he).bind (Skips.orElse_takes (skips_literal rfl).bind ?_)
    refine Skips.orElse_takes (skips_literal rfl).bind ?_
    exact .orElse ((takes_literal _).bind_nil takes_pure)

theorem comparison_begins (op : Comparison) : ∃ c t, op.sign.toList = c :: t ∧ isSpace c = false ∧ clings c = false ∧
    c ∉ ['+', '-', '*', '/'] ∧ c.isUpper = false := by
  cases op with
  | equal => exact ⟨'=', [], rfl, by decide, by decide, by decide, by decide⟩
  | notEqual => exact ⟨'<', ['>'], rfl, by decide, by decide, by decide, by decide⟩
  | less => exact ⟨'<', [], rfl, by decide, by decide, by decide, by decide⟩
  | greater => exact ⟨'>', [], rfl, by decide, by decide, by decide, by decide⟩
  | lessOrEqual => exact ⟨'<', ['='], rfl, by decide, by decide, by decide, by decide⟩
  | greaterOrEqual => exact ⟨'>', ['='], rfl, by decide, by decide, by decide, by decide⟩

/-- Two expressions with an operator between them are read to the end of the second one. -/
theorem takes_comparing {fits : Text → Prop} {s a b r k : Text} {l e : Expression} (op : Comparison) (hl : Chain fits s l)
    (ha : Spaces a) (hb : Spaces b) (hr : Chain fits r e) (hk : Ends 4 k) :
    Takes (Risk fits k) comparison (s ++ a ++ op.sign.toList ++ b ++ r) (.compare op l e) k := by
  have all : s ++ a ++ op.sign.toList ++ b ++ r = s ++ (a ++ (op.sign.toList ++ (b ++ r))) := by simp
  obtain ⟨c, t, hop, hs, hc, hsign, hupper⟩ := comparison_begins op
  have before : Ends 4 (a ++ (op.sign.toList ++ (b ++ r)) ++ k) := by
    rw [hop]
    simpa using ends_behind (k := t ++ (b ++ r) ++ k) ha hs hc hsign
  have noCapital : Stops Char.isUpper (a ++ (op.sign.toList ++ (b ++ r)) ++ k) := by
    rw [hop]
    simpa using stops_spaces (k := t ++ (b ++ r) ++ k) ha (by decide) hupper
  -- Neither a space nor what an expression begins with goes on with an operator.
  have noSign : ∀ c, c = '>' ∨ c = '=' → (b ++ r ++ k).head? ≠ some c := by
    intro c hc
    obtain ⟨d, u, rfl, hd⟩ := chain_begins hr
    have noSpace : decide (' ' = c) = false := by rcases hc with rfl | rfl <;> decide
    have noBegin : decide (d = c) = false := by
      refine decide_eq_false ?_
      rintro rfl
      rcases hc with rfl | rfl <;> simp [begins] at hd
    have none : Stops (fun d => decide (d = c)) (b ++ d :: (u ++ k)) := stops_spaces hb noSpace noBegin
    have := none.head_ne (c := c) (by simp)
    simpa using this
  rw [all]
  refine .bind ((takes_expression hl before).mono fun hrisk => .inl (hrisk.long noCapital)) (.bind (takes_spaces ha ?_) ?_)
  · rw [hop]
    simpa using hs
  refine .bind ((takes_comparisonOperator op (noSign _ (.inl rfl)) (noSign _ (.inr rfl))).mono False.elim) ?_
  exact .bind (takes_spaces hb (chain_head hr k)) ((takes_expression hr hk).bind_nil takes_pure)

theorem takes_comparison {c : Condition} (h : c.IsComparison) {k : Text} (hk : Free k) :
    Takes False comparison c.render c k := by
  cases h with
  | @compare op l r hl hr =>
    have compared := takes_comparing op (chain_atom (render_atom hl)) spaces_nil spaces_nil
      (chain_atom (render_atom hr)) hk.1
    have short := compared.mono fun hrisk => not_long_withinLimit (hrisk.long hk.2)
    simpa [Condition.render] using short

section Joined

variable {R : Prop} {op : Connective} {left d : Condition} {right : Rule Condition} {a b s k : Text}

theorem takes_joined (ha : Spaces a) (hb : Spaces b) (hr : Takes R right s d k) (hs : Stops isSpace (s ++ k)) :
    Takes R (joined op op.keyword left right) (a ++ op.keyword.toList ++ b ++ s) (.connect op left d) k := by
  have all : a ++ op.keyword.toList ++ b ++ s = a ++ (op.keyword.toList ++ (b ++ s)) := by simp
  rw [all]
  refine .bind (takes_spaces ha ?_) (.bind (takes_literal _) (.bind (takes_spaces hb hs) (hr.bind_nil takes_pure)))
  cases op <;> simp [Connective.keyword, isSpace]

theorem skips_joined {spelling : String} (ha : Spaces a) (hs : Stops isSpace k)
    (h : spelling.toList.isPrefixOf k = false) : Skips R (joined op spelling left right) (a ++ k) :=
  (takes_spaces ha hs).bind_skips (skips_literal h).bind

end Joined

theorem comparison_head {c : Condition} (h : c.IsComparison) (k : Text) : Stops isSpace (c.render ++ k) := by
  cases h with
  | compare op hl =>
    rw [Condition.render, List.append_assoc, List.append_assoc]
    exact atom_head (render_atom hl) _

theorem condition_head {c : Condition} (h : c.WellFormed) (k : Text) : Stops isSpace (c.render ++ k) := by
  have joined : ∀ (op : Connective) (c d : Condition), c.IsComparison → Stops isSpace ((c.connect op d).render ++ k) := by
    intro op c d hc
    rw [Condition.render, List.append_assoc, List.append_assoc, List.append_assoc, List.append_assoc]
    exact comparison_head hc _
  cases h with
  | comparison hc => exact comparison_head hc k
  | and hc => exact joined .and _ _ hc
  | or hc => exact joined .or _ _ hc

theorem render_connect (op : Connective) (c d : Condition) :
    (c.connect op d).render = c.render ++ ([' '] ++ op.keyword.toList ++ [' '] ++ d.render) := by
  simp [Condition.render]

theorem free_keyword (op : Connective) (t : Text) : Free ([' '] ++ op.keyword.toList ++ [' '] ++ t) := by
  cases op <;> exact free_space (by decide) (by decide)

theorem free_then (k : Text) : Free (" THEN".toList ++ k) := free_space (c := 'T') (by decide) (by decide)

theorem then_head (k : Text) : Stops isSpace ("THEN".toList ++ k) := by simp [isSpace]

theorem skips_before_then {op : Connective} {spelling : String} {left : Condition} {right : Rule Condition} {k : Text}
    (h : spelling.toList.isPrefixOf ("THEN".toList ++ k) = false) :
    Skips False (joined op spelling left right) (" THEN".toList ++ k) := by
  have all : " THEN".toList ++ k = [' '] ++ ("THEN".toList ++ k) := by simp
  rw [all]
  exact skips_joined spaces_one (then_head k) h

theorem takes_conjunction {c : Condition} (h : c.IsConjunction) (k : Text) :
    Takes False conjunction c.render c (" THEN".toList ++ k) := by
  induction h with
  | comparison hc =>
    rw [conjunction_eq]
    refine (takes_comparison hc (free_then k)).bind_nil (Skips.orElse_takes ?_ takes_pure)
    exact skips_before_then rfl
  | @and c d hc hd ih =>
    rw [conjunction_eq, render_connect]
    refine .bind (takes_comparison hc ?_) (.orElse (takes_joined spaces_one spaces_one ih (condition_head hd.wellFormed _)))
    simpa using free_keyword .and (d.render ++ (" THEN".toList ++ k))

theorem takes_condition {c : Condition} (h : c.WellFormed) (k : Text) :
    Takes False condition c.render c (" THEN".toList ++ k) := by
  induction h with
  | comparison hc =>
    rw [condition_eq]
    refine (takes_comparison hc (free_then k)).bind_nil (Skips.orElse_takes ?_ (Skips.orElse_takes ?_ takes_pure))
    · exact skips_before_then rfl
    · exact skips_before_then rfl
  | @and c d hc hd =>
    rw [condition_eq, render_connect]
    have right : Takes False (joined .and "AND" c conjunction) _ _ (" THEN".toList ++ k) :=
      takes_joined spaces_one spaces_one (takes_conjunction hd k) (condition_head hd.wellFormed _)
    refine .bind (takes_comparison hc ?_) (.orElse right)
    simpa using free_keyword .and (d.render ++ (" THEN".toList ++ k))
  | @or c d hc hd ih =>
    rw [condition_eq, render_connect]
    refine .bind (takes_comparison hc ?_) (Skips.orElse_takes ?_ (.orElse ?_))
    · simpa using free_keyword .or (d.render ++ (" THEN".toList ++ k))
    · have other : Skips False (joined .and "AND" c conjunction)
          ([' '] ++ ("OR".toList ++ ([' '] ++ (d.render ++ (" THEN".toList ++ k))))) :=
        skips_joined spaces_one (by simp [isSpace]) rfl
      simpa [Connective.keyword] using other
    · exact takes_joined spaces_one spaces_one ih (condition_head hd _)

/-! ## Keywords -/

/-- The rules for single statements with the keywords they begin with, in the order in which they are tried. -/
def keywordRules : List (String × Rule Statement) :=
  [ ("REM", remarkStatement), ("PRINT", printStatement), ("LET", assignStatement), ("END", finishStatement),
    ("GOTO", gotoStatement), ("GOSUB", gosubStatement), ("IF", ifStatement), ("FOR", forStatement),
    ("NEXT", nextStatement), ("INPUT", inputStatement), ("RETURN", returnStatement), ("DIM", dimStatement),
    ("ON", onGotoStatement) ]

theorem statementRules_eq : statementRules = keywordRules.map Prod.snd := rfl

/-- The texts differ at a place that both have. -/
def apart : Text → Text → Bool
  | c :: s, d :: t => c ≠ d || apart s t
  | _, _ => false

theorem isPrefixOf_of_apart {s t : Text} (h : apart s t = true) (r : Text) : t.isPrefixOf (s ++ r) = false := by
  induction s generalizing t with
  | nil => cases h
  | cons c s ih =>
    cases t with
    | nil => cases h
    | cons d t =>
      by_cases hcd : c = d
      · subst hcd
        have tail : apart s t = true := by simpa [apart] using h
        simpa [List.isPrefixOf] using ih tail
      · simp [List.isPrefixOf, Ne.symm hcd]

/-- Any two keywords differ at a place that both have. -/
theorem keywordRules_apart : keywordRules.Pairwise fun e e' => apart e'.1.toList e.1.toList = true := by
  have keys : (keywordRules.map fun e => e.1.toList).Pairwise fun s t => apart t s = true := by decide
  exact List.pairwise_map.mp keys

/-- A rule and an earlier one have keywords that are apart. -/
theorem earlier_apart {before after : List (Rule Statement)} {p q : Rule Statement}
    (h : statementRules = before ++ p :: after) (hq : q ∈ before) :
    ∃ K K', (K, p) ∈ keywordRules ∧ (K', q) ∈ keywordRules ∧ apart K.toList K'.toList = true := by
  rw [statementRules_eq] at h
  obtain ⟨before, behind, hrules, rfl, hbehind⟩ := List.map_eq_append_iff.mp h
  obtain ⟨⟨K, p⟩, after, rfl, rfl, -⟩ := List.map_eq_cons_iff.mp hbehind
  obtain ⟨⟨K', q⟩, hmem, rfl⟩ := List.mem_map.mp hq
  have ordered := keywordRules_apart
  rw [hrules, List.pairwise_append] at ordered
  refine ⟨K, K', ?_, ?_, ordered.2.2 _ hmem _ List.mem_cons_self⟩
  · rw [hrules]
    exact List.mem_append_right _ List.mem_cons_self
  · rw [hrules]
    exact List.mem_append_left _ hmem

/-- A keyword begins with two capitals. -/
theorem keyword_capitals {K : String} {p : Rule Statement} (h : (K, p) ∈ keywordRules) :
    ∃ c d w, K.toList = c :: d :: w ∧ c.isUpper = true ∧ d.isUpper = true := by
  simp only [keywordRules, List.mem_cons, Prod.mk.injEq, List.not_mem_nil, or_false] at h
  rcases h with ⟨rfl, -⟩ | ⟨rfl, -⟩ | ⟨rfl, -⟩ | ⟨rfl, -⟩ | ⟨rfl, -⟩ | ⟨rfl, -⟩ | ⟨rfl, -⟩ | ⟨rfl, -⟩ | ⟨rfl, -⟩ |
    ⟨rfl, -⟩ | ⟨rfl, -⟩ | ⟨rfl, -⟩ | ⟨rfl, -⟩ <;> exact ⟨_, _, _, rfl, by decide, by decide⟩

variable {R : Prop}

/-- Without its keyword, an assignment has an index or an equals sign behind the name it begins with. -/
theorem skips_unassigned {c : Char} {t : Text} (noIndex : t.head? ≠ some '(')
    (noEqual : (t.dropWhile isSpace).head? ≠ some '=') (h : "LET".toList.isPrefixOf (c :: t) = false) :
    Skips R assignStatement (c :: t) := by
  have noLet : Takes R (succeeds (keyword "LET")) [] false (c :: t) := (skips_literal h).bind.succeeds
  refine noLet.bind_skips ?_
  by_cases hc : c.isAlpha = true
  · have named : Takes R target [c] (.scalar c) t :=
      Skips.orElse_takes (skips_arrayReferenceOf noIndex).bind (.orElse ((takes_letter hc).bind_nil takes_pure))
    exact named.bind_skips (skips_spaces_literal (c := '=') rfl noEqual)
  · have noLetter : Skips R letter (c :: t) := skips_letter (by simpa using hc)
    have noTarget : Skips R target (c :: t) :=
      .orElse (Skips.bind (Skips.bind noLetter)) (.orElse noLetter.bind skips_fail)
    exact noTarget.bind

/-- No assignment begins with two letters, if not with its keyword. -/
theorem skips_assignStatement {c d : Char} {t : Text} (hd : d.isUpper = true)
    (h : "LET".toList.isPrefixOf (c :: d :: t) = false) : Skips R assignStatement (c :: d :: t) := by
  have noIndex : (d :: t).head? ≠ some '(' := by
    rintro ⟨⟩
    simp at hd
  refine skips_unassigned noIndex ?_ h
  have noSpace : d ≠ ' ' := by
    rintro rfl
    simp at hd
  have ahead : (d :: t).dropWhile isSpace = d :: t := by simp [isSpace, noSpace]
  rw [ahead]
  rintro ⟨⟩
  simp at hd

theorem skips_apart {K K' : String} {p p' : Rule Statement} (h : (K, p) ∈ keywordRules) (h' : (K', p') ∈ keywordRules)
    (ha : apart K.toList K'.toList = true) (r : Text) : Skips R p' (K.toList ++ r) := by
  have none := isPrefixOf_of_apart ha r
  have literal : Skips R (literal K') (K.toList ++ r) := skips_literal none
  obtain ⟨c, d, w, hK, -, hd⟩ := keyword_capitals h
  simp only [keywordRules, List.mem_cons, Prod.mk.injEq, List.not_mem_nil, or_false] at h'
  rcases h' with ⟨rfl, rfl⟩ | ⟨rfl, rfl⟩ | ⟨rfl, rfl⟩ | ⟨rfl, rfl⟩ | ⟨rfl, rfl⟩ | ⟨rfl, rfl⟩ | ⟨rfl, rfl⟩ | ⟨rfl, rfl⟩ |
    ⟨rfl, rfl⟩ | ⟨rfl, rfl⟩ | ⟨rfl, rfl⟩ | ⟨rfl, rfl⟩ | ⟨rfl, rfl⟩
  case inr.inr.inl =>
    rw [hK] at none ⊢
    exact skips_assignStatement hd none
  all_goals first | exact literal.bind | exact Skips.bind literal.bind

/-- Where a keyword stands, its rule is the first one to find anything. -/
theorem takes_by_keyword {K : String} {p : Rule Statement} {s k : Text} {v : Statement} (h : (K, p) ∈ keywordRules)
    (hp : Takes R p (K.toList ++ s) v k) : Takes R (firstOf statementRules) (K.toList ++ s) v k := by
  obtain ⟨before, after, hl⟩ := List.append_of_mem h
  have ordered := keywordRules_apart
  rw [hl, List.pairwise_append] at ordered
  rw [statementRules_eq, hl, List.map_append, List.map_cons]
  refine Takes.firstOf (fun q hq => ?_) hp
  obtain ⟨e, he, rfl⟩ := List.mem_map.mp hq
  rw [List.append_assoc]
  have mem : (e.1, e.2) ∈ keywordRules := by
    rw [hl]
    exact List.mem_append_left _ he
  exact skips_apart h mem (ordered.2.2 e he (K, p) List.mem_cons_self) (s ++ k)

theorem takes_keyword (K : String) {a k : Text} (ha : Spaces a) (hk : Stops isSpace k) :
    Takes R (keyword K) (K.toList ++ a) () k :=
  .bind (takes_literal K) (takes_spaces ha hk)

/-- A keyword, spaces, and what the rule reads behind them. -/
theorem takes_behind_keyword {K : String} {p : Rule Statement} {f : Unit → Rule Statement} {a s k : Text} {v : Statement}
    (h : (K, p) ∈ keywordRules) (hp : p = keyword K >>= f) (ha : Spaces a) (head : Stops isSpace (s ++ k))
    (hf : Takes R (f ()) s v k) : Takes R (firstOf statementRules) (K.toList ++ (a ++ s)) v k := by
  refine takes_by_keyword h ?_
  have := (takes_keyword K ha head).bind hf
  rwa [List.append_assoc, ← hp] at this

theorem takes_keyworded {K : String} {p : Rule Statement} {f : Unit → Rule Statement} {s k : Text} {v : Statement}
    (h : (K, p) ∈ keywordRules) (hp : p = keyword K >>= f) (head : Stops isSpace (s ++ k)) (hf : Takes R (f ()) s v k) :
    Takes R (firstOf statementRules) (K.toList ++ ' ' :: s) v k := by
  have := takes_behind_keyword h hp spaces_one head hf
  rwa [List.singleton_append] at this

/-! ## Statements -/

theorem listed_head {α : Type} {f : α → Text} {l : List α} (hl : l ≠ []) (head : ∀ a ∈ l, ∀ t, Stops isSpace (f a ++ t))
    (k : Text) : Stops isSpace (listed (l.map f) ++ k) := by
  match l with
  | [a] => exact head a (by simp) k
  | a :: b :: l => simpa [listed] using head a (by simp) (',' :: (listed ((b :: l).map f) ++ k))

/-- Items with commas between them are read one by one if each is read before a comma and before what is behind the
    list. -/
theorem takes_listed {α : Type} {item : Rule α} {f : α → Text} {k : Text} (hi : Advances item) (hk : Ending k)
    {l : List α} (hl : l ≠ []) (head : ∀ a ∈ l, ∀ t, Stops isSpace (f a ++ t))
    (h : ∀ a ∈ l, ∀ t, t = k ∨ (∃ r, t = ',' :: r) → Takes False item (f a) a t) :
    Takes False (separated "," item) (listed (l.map f)) l k := by
  induction l with
  | nil => exact absurd rfl hl
  | cons a l ih =>
    rw [separated_eq (by simp) hi]
    cases l with
    | nil =>
      have noComma : Skips False (do spaces; literal ","; spaces) k := skips_spaces_literal (c := ',') rfl (hk.closes.behind (by decide))
      exact (h a (by simp) k (.inl rfl)).bind_nil (noComma.succeeds.bind_nil takes_pure)
    | cons b l =>
      have others := ih (by simp) (fun c hc => head c (by simp [hc])) fun c hc => h c (by simp [hc])
      have begin := listed_head (l := b :: l) (by simp) (fun c hc => head c (by simp [hc])) k
      have comma : Takes False (do spaces; literal ","; spaces) ([] ++ (",".toList ++ [])) ()
          (listed ((b :: l).map f) ++ k) :=
        .bind (takes_no_space (by simp [isSpace])) (.bind (takes_literal _) (takes_no_space begin))
      have first := h a (by simp) (([] ++ (",".toList ++ []) ++ listed ((b :: l).map f)) ++ k) (.inr ⟨_, rfl⟩)
      have all : listed ((a :: b :: l).map f) = f a ++ ([] ++ (",".toList ++ []) ++ listed ((b :: l).map f)) := by
        simp [listed]
      rw [all]
      exact .bind first (.bind comma.succeeds (others.bind_nil takes_pure))

theorem string_head {s : StringExpression} (h : s.WellFormed) (k : Text) : Stops isSpace (s.render ++ k) := by
  obtain ⟨u, b, d, hparts, hs, -⟩ := render_dangling h
  rw [hs, List.append_assoc]
  exact parts_head hparts _

/-- A statement that is its keyword. -/
theorem takes_word {K : String} {p : Rule Statement} {k : Text} {v : Statement} (h : (K, p) ∈ keywordRules)
    (hp : Takes R p K.toList v k) : Takes R (firstOf statementRules) K.toList v k := by
  have := takes_by_keyword (s := []) h (by rwa [List.append_nil])
  rwa [List.append_nil] at this

theorem takes_target {t : Target} (h : t.WellFormed) {k : Text} (hk : k.head? ≠ some '(') :
    Takes False target t.render t k := by
  cases h with
  | @scalar c hc =>
    have noIndex : Skips False arrayReference (c :: k) := skips_arrayReferenceOf hk
    exact Skips.orElse_takes noIndex.bind (.orElse ((takes_letter hc).bind_nil takes_pure))
  | array ha => exact .orElse ((takes_element ha k).bind_nil takes_pure)

theorem target_head {t : Target} (h : t.WellFormed) (k : Text) : Stops isSpace (t.render ++ k) := by
  cases h with
  | scalar hc => exact letter_head hc k
  | array ha => exact atom_head (render_atom ha) k

theorem takes_assign {t : Target} {e : Expression} (ht : t.WellFormed) (he : e.WellFormed) {k : Text} (hk : Free k) :
    Takes False assignStatement ("LET".toList ++ ' ' :: (t.render ++ ['='] ++ e.render)) (.assign t e) k := by
  have all : "LET".toList ++ ' ' :: (t.render ++ ['='] ++ e.render) =
      ("LET".toList ++ [' ']) ++ (t.render ++ ([] ++ ("=".toList ++ ([] ++ e.render)))) := by
    simp
  rw [all]
  refine .bind (takes_keyword "LET" spaces_one (by simpa using target_head ht _)).succeeds ?_
  refine .bind (takes_target ht (by simp)) (.bind (takes_no_space (by simp [isSpace])) ?_)
  refine .bind (takes_literal _) (.bind (takes_no_space (atom_head (render_atom he) k)) ?_)
  exact (takes_render he hk).bind_nil takes_pure

theorem takes_if {c : Condition} {n : LineNumber} (hc : c.WellFormed) (hn : FitsLimit n) {k : Text}
    (hk : Stops Char.isDigit k) :
    Takes False (firstOf statementRules) ("IF".toList ++ ' ' :: (c.render ++ " THEN ".toList ++ numeral n))
      (.ifThen c n) k := by
  have all : c.render ++ " THEN ".toList ++ numeral n =
      c.render ++ ([' '] ++ (("THEN".toList ++ [' ']) ++ numeral n)) := by
    simp
  refine takes_keyworded (p := ifStatement) (by simp [keywordRules]) rfl ?_ ?_
  · rw [all, List.append_assoc]
    exact condition_head hc _
  rw [all]
  refine .bind (by simpa using takes_condition hc ([' '] ++ numeral n ++ k)) ?_
  refine .bind (takes_space (by simp [isSpace])) ?_
  exact .bind (takes_keyword "THEN" spaces_one (numeral_head n k)) ((takes_numeral hn hk).bind_nil takes_pure)

theorem takes_stepClause {s : Expression} (hs : s.WellFormed) {k : Text} (hk : Free k) :
    Takes False stepClause (" STEP ".toList ++ s.render) s k := by
  have all : " STEP ".toList ++ s.render = ([' '] ++ ("STEP".toList ++ [' '])) ++ s.render := by simp
  have clause : Takes False (do spaces; keyword "STEP") ([' '] ++ ("STEP".toList ++ [' '])) () (s.render ++ k) :=
    .bind (takes_space (by simp [isSpace])) (takes_keyword "STEP" spaces_one (atom_head (render_atom hs) k))
  rw [all]
  exact .bind clause.succeeds (takes_render hs hk)

theorem takes_for {c : Char} {a b s : Expression} (hc : c.isAlpha = true) (ha : a.WellFormed) (hb : b.WellFormed)
    (hs : s.WellFormed) {k : Text} (hk : Free k) :
    Takes False (firstOf statementRules)
      ("FOR".toList ++ ' ' :: ([c, '='] ++ a.render ++ " TO ".toList ++ b.render ++ " STEP ".toList ++ s.render))
      (.forLoop c a b s) k := by
  have all : [c, '='] ++ a.render ++ " TO ".toList ++ b.render ++ " STEP ".toList ++ s.render =
      [c] ++ ([] ++ ("=".toList ++ ([] ++ (a.render ++ ([' '] ++ (("TO".toList ++ [' ']) ++
        (b.render ++ (" STEP ".toList ++ s.render)))))))) := by
    simp
  refine takes_keyworded (p := forStatement) (by simp [keywordRules]) rfl (by rw [all]; exact letter_head hc _) ?_
  rw [all]
  refine .bind (takes_letter hc) (.bind (takes_no_space (by simp [isSpace])) (.bind (takes_literal _) ?_))
  refine .bind (takes_no_space (by simpa using atom_head (render_atom ha) _)) (.bind (takes_render ha ?_) ?_)
  · exact free_space (c := 'T') (by decide) (by decide)
  refine .bind (takes_space (by simp [isSpace])) (.bind (takes_keyword "TO" spaces_one ?_) ?_)
  · simpa using atom_head (render_atom hb) _
  refine .bind (takes_render hb ?_) ((takes_stepClause hs hk).bind_nil takes_pure)
  exact free_space (c := 'S') (by decide) (by decide)

/-- The names of INPUT as the string expression that they are read as. -/
def namesBody : List Char → StringExpression
  | [] => .literal []
  | [c] => .number (.scalar c)
  | c :: cs => .concatTab (.number (.scalar c)) (namesBody cs)

theorem namesBody_spec {cs : List Char} (hne : cs ≠ []) (h : ∀ c ∈ cs, c.isAlpha = true) :
    (namesBody cs).IsBody ∧ inputNames? (namesBody cs) = some cs ∧
      (namesBody cs).render = listed (cs.map fun c => [c]) := by
  induction cs with
  | nil => exact absurd rfl hne
  | cons c cs ih =>
    have name : StringExpression.IsFragment (.number (.scalar c)) := .number (.scalar (h c (by simp)))
    cases cs with
    | nil => exact ⟨.fragment name, rfl, rfl⟩
    | cons d cs =>
      obtain ⟨hb, hn, hr⟩ := ih (by simp) fun e he => h e (by simp [he])
      refine ⟨.concatTab name hb, ?_, ?_⟩
      · show inputNames? (.concatTab (.number (.scalar c)) (namesBody (d :: cs))) = some (c :: d :: cs)
        rw [inputNames?, hn]
        rfl
      · show (StringExpression.concatTab (.number (.scalar c)) (namesBody (d :: cs))).render = _
        rw [StringExpression.render, hr]
        rfl

theorem takes_input {p : Text} {cs : List Char} (hp : '"' ∉ p) (hcs : SomeAll (fun c => c.isAlpha = true) cs) {k : Text}
    (hk : Ending k) :
    Takes False (firstOf statementRules)
      ("INPUT".toList ++ ' ' :: (['"'] ++ p ++ ['"', ';'] ++ listed (cs.map fun c => [c]))) (.input p cs) k := by
  obtain ⟨hb, hn, hr⟩ := namesBody_spec hcs.1 hcs.2
  have operand : (StringExpression.concat (.literal p) (namesBody cs)).WellFormed := .body (.concat (.literal hp) hb)
  have all : ['"'] ++ p ++ ['"', ';'] ++ listed (cs.map fun c => [c]) =
      (StringExpression.concat (.literal p) (namesBody cs)).render := by
    rw [StringExpression.render, hr]
    simp [StringExpression.render]
  have read : inputOperand? (.concat (.literal p) (namesBody cs)) = some (p, cs) := by
    rw [inputOperand?, hn]
    rfl
  rw [all]
  refine takes_keyworded (p := inputStatement) (by simp [keywordRules]) rfl (string_head operand k) ?_
  refine takes_here fun start => (takes_stringExpression operand hk.closes).bind_nil ?_
  rw [read]
  exact takes_pure

theorem takes_onGoto {c : Char} {ns : List LineNumber} (hc : c.isAlpha = true) (hns : SomeAll FitsLimit ns) {k : Text}
    (hk : Ending k) :
    Takes False (firstOf statementRules)
      ("ON".toList ++ ' ' :: ([c] ++ " GOTO ".toList ++ listed (ns.map numeral))) (.onGoto c ns) k := by
  have all : [c] ++ " GOTO ".toList ++ listed (ns.map numeral) =
      [c] ++ ([' '] ++ (("GOTO".toList ++ [' ']) ++ listed (ns.map numeral))) := by
    simp
  refine takes_keyworded (p := onGotoStatement) (by simp [keywordRules]) rfl (by rw [all]; exact letter_head hc _) ?_
  rw [all]
  refine .bind (takes_letter hc) (.bind (takes_space (by simp [isSpace])) (.bind (takes_keyword "GOTO" spaces_one ?_) ?_))
  · exact listed_head hns.1 (fun n _ => numeral_head n) k
  refine (takes_listed advances_integer hk hns.1 (fun n _ => numeral_head n) fun n hn t ht => ?_).bind_nil takes_pure
  refine takes_numeral (hns.2 n hn) ?_
  rcases ht with rfl | ⟨r, rfl⟩
  · exact hk.closes.stops (by decide) (by decide)
  · simp

theorem takes_single {s : Statement} (h : s.WellFormed) (hs : s.IsSingle) {k : Text} (hk : Ending k) :
    Takes False (firstOf statementRules) s.render s k := by
  cases h with
  | assign ht he => exact takes_by_keyword (by simp [keywordRules]) (takes_assign ht he hk.closes.free)
  | print hp =>
    refine takes_keyworded (p := printStatement) (by simp [keywordRules]) rfl (string_head hp k) ?_
    exact (takes_stringExpression hp hk.closes).orElse.bind_nil takes_pure
  | finish =>
    refine takes_word (K := "END") (p := finishStatement) (by simp [keywordRules]) ?_
    exact (takes_literal _).bind_nil takes_pure
  | @goto n hn =>
    refine takes_keyworded (p := gotoStatement) (by simp [keywordRules]) rfl (numeral_head n k) ?_
    exact (takes_numeral hn (hk.closes.stops (by decide) (by decide))).bind_nil takes_pure
  | ifThen hc hn => exact takes_if hc hn (hk.closes.stops (by decide) (by decide))
  | forLoop hc ha hb hstep => exact takes_for hc ha hb hstep hk.closes.free
  | @nextLoop cs hl =>
    have head : ∀ c ∈ cs, ∀ t, Stops isSpace ([c] ++ t) := fun c hc t => letter_head (hl.2 c hc) t
    refine takes_keyworded (p := nextStatement) (by simp [keywordRules]) rfl (listed_head hl.1 head k) ?_
    exact (takes_listed advances_letter hk hl.1 head fun c hc t _ => takes_letter (hl.2 c hc)).bind_nil takes_pure
  | input hp hcs => exact takes_input hp hcs hk
  | @gosub n hn =>
    refine takes_keyworded (p := gosubStatement) (by simp [keywordRules]) rfl (numeral_head n k) ?_
    exact (takes_numeral hn (hk.closes.stops (by decide) (by decide))).bind_nil takes_pure
  | returnSub =>
    refine takes_word (K := "RETURN") (p := returnStatement) (by simp [keywordRules]) ?_
    exact (takes_literal _).bind_nil takes_pure
  | @dim arrays hl =>
    have head : ∀ a ∈ arrays, ∀ t, Stops isSpace (a.expression.render ++ t) := by
      intro a ha t
      exact atom_head (render_atom (hl.2 a ha)) t
    refine takes_keyworded (p := dimStatement) (by simp [keywordRules]) rfl (listed_head hl.1 head k) ?_
    have elements := takes_listed advances_arrayReference hk hl.1 head fun a ha t _ => takes_element (hl.2 a ha) t
    exact elements.bind_nil takes_pure
  | remark => cases hs
  | onGoto hc hns => exact takes_onGoto hc hns hk
  | sequence => cases hs

theorem render_sequence (f r : Statement) :
    (f.sequence r).render = f.render ++ ([' '] ++ (":".toList ++ ([' '] ++ r.render))) := by
  show f.render ++ " : ".toList ++ r.render = _
  simp

theorem statement_head (s : Statement) (k : Text) : Stops isSpace (s.render ++ k) := by
  have capital : ∀ (c : Char) (t : Text), c.isUpper = true → Stops isSpace (c :: t) := by
    intro c t hc d hd
    cases hd
    by_cases hs : c = ' '
    · subst hs
      simp at hc
    · simp [isSpace, hs]
  induction s generalizing k with
  | sequence f r ih _ =>
    rw [render_sequence, List.append_assoc]
    exact ih _
  | _ => exact capital _ _ (by decide)

theorem takes_alone {s : Statement} (h : s.WellFormed) (hs : s.IsSingle) : Takes False statement s.render s [] := by
  rw [statement_eq]
  refine (takes_single h hs (.inl rfl)).bind_nil (Skips.orElse_takes ?_ takes_pure)
  exact skips_spaces_literal (c := ':') rfl (by simp)

/-- The rendering of a well-formed statement is read as it. -/
theorem takes_statement {s : Statement} (h : s.WellFormed) : Takes False statement s.render s [] := by
  induction s with
  | remark =>
    have remark : Takes False remarkStatement "REM".toList .remark [] :=
      (takes_literal _).bind_nil ((takes_restOfLine []).bind_nil takes_pure)
    rw [statement_eq]
    refine (takes_word (K := "REM") (by simp [keywordRules]) remark).bind_nil (Skips.orElse_takes ?_ takes_pure)
    exact skips_spaces_literal (c := ':') rfl (by simp)
  | sequence f r _ ih =>
    cases h with
    | sequence hf hs hr =>
      rw [statement_eq, render_sequence]
      refine .bind (takes_single hf hs (.inr ⟨_, rfl⟩)) (.orElse ?_)
      refine .bind (takes_space (by simp [isSpace])) (.bind (takes_literal _) ?_)
      exact .bind (takes_space (statement_head r [])) ((ih hr).bind_nil takes_pure)
  | _ => exact takes_alone h trivial

end Grammar

/-- The trees of texts are the well-formed ones, and each is the tree of its own rendering. -/
theorem statement_trees (s : Statement) :
    ((∃ t, Statement.ofText t = .ok s) ↔ s.WellFormed) ∧ (s.WellFormed → Statement.ofText s.render = .ok s) := by
  have rendered : s.WellFormed → Statement.ofText s.render = .ok s := by
    intro h
    have all := (Grammar.takes_statement h).parse spaces_nil id
    rwa [List.append_nil] at all
  refine ⟨⟨?_, fun h => ⟨s.render, rendered h⟩⟩, rendered⟩
  rintro ⟨t, ht⟩
  exact Grammar.yields_statement.parse ht

end LineBasic
