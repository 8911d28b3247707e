import LineBasic.Proofs.Fragments

/-
  LineBasic.Proofs.Prompting — which texts are read as INPUT.

  INPUT reads its operand as a string expression and keeps it if its tree lists names, perhaps behind a prompt. What is
  left of the texts of string expressions is `Asks`: perhaps a quoted prompt with a semicolon right behind it, then names
  with a comma right behind each of them but the last. Parentheses around a name leave no trace in the tree, so a name may
  stand in any number of them (`Chain.enclosed`). Nothing in such a text can abort, and no other text that begins with
  INPUT is a single statement (`ofText_iff_asks`).
-/

namespace LineBasic

/-! ## Texts -/

namespace Spelling

/-- A name in any number of parentheses. -/
inductive Enclosed : Text → Char → Prop
  | name {c} : c.isAlpha = true → Enclosed [c] c
  | parenthesised {a s b c} : Spaces a → Enclosed s c → Spaces b → Enclosed (['('] ++ a ++ s ++ b ++ [')']) c

/-- One or more names. A comma stands right behind a name, and spaces may stand behind the comma. -/
inductive Roster : Text → List Char → Prop
  | one {s c} : Enclosed s c → Roster s [c]
  | more {s c a r cs} : Enclosed s c → Spaces a → Roster r cs → Roster (s ++ [','] ++ a ++ r) (c :: cs)

/-- A quoted prompt and a semicolon, or nothing for the empty prompt. -/
inductive Prompt : Text → Text → Prop
  | none : Prompt [] []
  | quoted {p a} : '"' ∉ p → Spaces a → Prompt (['"'] ++ p ++ ['"', ';'] ++ a) p

/-- All of a text that asks for names, with its prompt. -/
inductive Asks : Text → Text → List Char → Prop
  | input {a q p s cs pad} : Spaces a → Prompt q p → Roster s cs → Spaces pad →
      Asks ("INPUT".toList ++ a ++ q ++ s ++ pad) p cs

/-! ## From the operand to the text -/

theorem loosestSplit_cons (l : Link) (links : List Link) : loosestSplit (l :: links) ≠ none := by
  intro h
  have every := List.findSome?_eq_none_iff.mp h l.1 (by cases l.1 <;> simp [loosestFirst])
  have none := splitAtFirst_eq_none (Option.map_eq_none_iff.mp every) l (by simp)
  exact none rfl

/-- Only a single atom has the tree of a name. -/
theorem chainTree_scalar {x : Expression} {links : List Link} {c : Char} (h : chainTree x links = .scalar c) :
    links = [] ∧ x = .scalar c := by
  cases links with
  | nil => exact ⟨rfl, by rwa [chainTree_nil] at h⟩
  | cons l links =>
    obtain ⟨⟨op, before, y, after⟩, hsplit⟩ := Option.ne_none_iff_exists'.mp (loosestSplit_cons l links)
    rw [chainTree_some hsplit] at h
    cases h

mutual

theorem Atom.enclosed {fits : Text → Prop} {s : Text} {e : Expression} {c : Char} :
    Atom fits s e → e = .scalar c → Enclosed s c
  | .parenthesised ha hs hb, h => .parenthesised ha (hs.enclosed h) hb
  | .scalar hc, h => by
    cases h
    exact .name hc
  | .call _ _ _ _, h => nomatch h
  | .negation _ _, h => nomatch h
  | .real _ _, h => nomatch h
  | .integer _ _, h => nomatch h
  | .element _, h => nomatch h

theorem Chain.enclosed {fits : Text → Prop} {s : Text} {e : Expression} {c : Char} :
    Chain fits s e → e = .scalar c → Enclosed s c
  | .chain hs hr, h => by
    obtain ⟨rfl, hx⟩ := chainTree_scalar h
    cases hr
    rw [List.append_nil]
    exact hs.enclosed hx

end

theorem roster_of_body {s : Text} {w : StringExpression} {cs : List Char} (hn : Named w cs) (hb : Body s w) :
    Roster s cs := by
  induction hn generalizing s with
  | one =>
    cases hb with
    | fragment hf =>
      cases hf with
      | number he => exact .one (he.enclosed rfl)
  | more _ ih =>
    cases hb with
    | fragment hf => cases hf
    | concatTab hf ha hr =>
      cases hf with
      | number he => exact .more (he.enclosed rfl) ha (ih hr)

theorem prompt_of_written {s p : Text} {w : StringExpression} {cs : List Char} (ho : Operand w p cs) (hw : Written s w) :
    ∃ q r, s = q ++ r ∧ Prompt q p ∧ Roster r cs := by
  cases ho with
  | names hn =>
    cases hw with
    | body hb => exact ⟨[], s, rfl, .none, roster_of_body hn hb⟩
    | trailingTab => cases hn
    | suppressNewline => cases hn
  | prompted hn =>
    cases hw with
    | body hb =>
      cases hb with
      | fragment hf => cases hf
      | concat hf ha hr =>
        cases hf with
        | literal hp => exact ⟨_, _, by simp, .quoted hp ha, roster_of_body hn hr⟩

/-! ## From the text to the operand -/

theorem Enclosed.atom {fits : Text → Prop} {s : Text} {c : Char} (h : Enclosed s c) : Atom fits s (.scalar c) := by
  induction h with
  | name hc => exact .scalar hc
  | parenthesised ha _ hb ih => exact .parenthesised ha (Grammar.chain_atom ih) hb

theorem Enclosed.part {fits : Text → Prop} {s : Text} {c : Char} (h : Enclosed s c) :
    Part fits s (.number (.scalar c)) :=
  .number (Grammar.chain_atom h.atom)

theorem Roster.named (fits : Text → Prop) {s : Text} {cs : List Char} (h : Roster s cs) :
    ∃ w, Parts fits s w ∧ Named w cs := by
  induction h with
  | one hs => exact ⟨_, .part hs.part, .one⟩
  | more hs ha _ ih =>
    obtain ⟨w, hw, hn⟩ := ih
    exact ⟨_, .join .comma hs.part ha hw, .more hn⟩

theorem Prompt.operand (fits : Text → Prop) {q p r : Text} {cs : List Char} (hq : Prompt q p) (hr : Roster r cs) :
    ∃ w, Parts fits (q ++ r) w ∧ Operand w p cs := by
  obtain ⟨w, hw, hn⟩ := hr.named fits
  cases hq with
  | none => exact ⟨w, hw, .names hn⟩
  | quoted hp ha =>
    have joined := Parts.join .semicolon (.literal hp) ha hw
    exact ⟨_, by simpa [Separator.sign, Separator.join] using joined, .prompted hn⟩

end Spelling

namespace Grammar

open Rule Spelling

theorem takes_asks {a q p s cs k : Text} (ha : Spaces a) (hq : Prompt q p) (hs : Roster s cs) (hk : Closes k) :
    Takes False (firstOf statementRules) ("INPUT".toList ++ (a ++ (q ++ s))) (.input p cs) k := by
  obtain ⟨w, hw, hoperand⟩ := hq.operand withinLimit hs
  have operand : Takes False stringExpression (q ++ s) w k := by
    have := (takes_dangling hw none hk).mono not_long_withinLimit
    rwa [danglingText, List.append_nil] at this
  refine takes_behind_keyword (p := inputStatement) (by simp [keywordRules]) rfl ha (parts_head hw k) ?_
  refine takes_here fun start => operand.bind_nil ?_
  rw [inputOperand?_iff.mpr hoperand]
  exact takes_pure

end Grammar

open Grammar Rule

namespace Spelling

/-- A single statement that begins with INPUT asks for names. -/
theorem Single.asks {s pad : Text} {v : Statement} (h : Single s v) (hi : "INPUT".toList <+: s ++ pad) :
    ∃ p cs, v = .input p cs := by
  cases h with
  | input => exact ⟨_, _, rfl⟩
  | @assign l s t a b r e hl ht ha =>
    cases hl with
    | letting => simp at hi
    | nothing =>
      -- No capital stands behind the letter that is assigned to.
      obtain ⟨c, u, rfl, hu⟩ := assigned_text ht
      have noCapital : Stops Char.isUpper (u ++ (a ++ '=' :: (b ++ (r ++ pad)))) := by
        rcases hu with rfl | ⟨w, rfl⟩
        · exact stops_spaces ha (by decide) (by decide)
        · simp
      obtain ⟨rest, hrest⟩ := hi
      have second : 'N' :: ("PUT".toList ++ rest) = u ++ (a ++ '=' :: (b ++ (r ++ pad))) := by
        simpa using (List.cons.inj (by simpa using hrest)).2
      rw [← second] at noCapital
      simp at noCapital
  | _ => simp at hi

/-- So does a line without a colon. -/
theorem Line.asks {s pad : Text} {v : Statement} (h : Line s v) (hi : "INPUT".toList <+: s ++ pad) (hc : ':' ∉ s) :
    ∃ p cs, v = .input p cs := by
  cases h with
  | remark => simp at hi
  | single hs => exact hs.asks hi
  | sequence => simp at hc

theorem Line.asked {s pad p : Text} {cs : List Char} (h : Line s (.input p cs)) (hp : Spaces pad) :
    Asks (s ++ pad) p cs := by
  cases h with
  | single hs =>
    cases hs with
    | input ha hw ho =>
      obtain ⟨q, r, rfl, hq, hr⟩ := prompt_of_written ho hw
      simpa using Asks.input ha hq hr hp

end Spelling

theorem asks_of_ofText {t p : Text} {cs : List Char} (h : Statement.ofText t = .ok (.input p cs)) :
    Spelling.Asks t p cs := by
  obtain ⟨s, pad, rfl, hpad, hs⟩ := sound_statement.parse h
  exact hs.asked hpad

theorem ofText_of_asks {t p : Text} {cs : List Char} (h : Spelling.Asks t p cs) :
    Statement.ofText t = .ok (.input p cs) := by
  cases h with
  | @input a q p s cs pad ha hq hs hp =>
    have closes : Closes pad := ⟨pad, [], by simp, hp, .inl rfl⟩
    have taken : Takes False statement ("INPUT".toList ++ (a ++ (q ++ s))) (.input p cs) pad := by
      rw [statement_eq_another]
      exact (takes_asks ha hq hs closes).bind_nil (Skips.orElse_takes (skips_another _ hp) takes_pure)
    have := taken.parse hp id
    simpa [Statement.ofText] using this

/-- A text is read as INPUT if and only if it asks for these names with this prompt, and no other text that begins with
    INPUT and has no colon is read at all. -/
theorem ofText_iff_asks (t : Text) :
    (∀ p cs, Statement.ofText t = .ok (.input p cs) ↔ Spelling.Asks t p cs) ∧
    ("INPUT".toList <+: t → ':' ∉ t → (∀ p cs, ¬ Spelling.Asks t p cs) → ∀ v, Statement.ofText t ≠ .ok v) := by
  refine ⟨fun p cs => ⟨asks_of_ofText, ofText_of_asks⟩, fun hi hc none v hv => ?_⟩
  obtain ⟨s, pad, rfl, hpad, hs⟩ := sound_statement.parse hv
  obtain ⟨p, cs, rfl⟩ := hs.asks hi fun h => hc (List.mem_append_left pad h)
  exact none p cs (hs.asked hpad)

/-- A colon in the prompt and names in parentheses; a semicolon between names. -/
theorem ofText_asks_enclosed :
    Spelling.Asks "INPUT\"A:\"; ( (X)),Y ".toList "A:".toList ['X', 'Y'] ∧
      ∀ v, Statement.ofText "INPUT A;B".toList ≠ .ok v := by
  have read : Statement.ofText "INPUT\"A:\"; ( (X)),Y ".toList = .ok (.input "A:".toList ['X', 'Y']) := by rfl
  have refused : ∀ p cs, Statement.ofText "INPUT A;B".toList ≠ .ok (.input p cs) := by
    intro p cs h
    cases h
  have none : ∀ p cs, ¬ Spelling.Asks "INPUT A;B".toList p cs := fun p cs h => refused p cs (ofText_of_asks h)
  exact ⟨((ofText_iff_asks _).1 _ _).mp read, (ofText_iff_asks _).2 (by decide) (by decide) none⟩

end LineBasic
