import LineBasic.Proofs.Alike
import LineBasic.Proofs.Whole

/-
  LineBasic.Proofs.Connectives — chains of comparisons joined by AND and OR.

  A chain is read as far as no OR comes behind an AND: what is read is the right-nested tree of the comparisons, and the
  first OR behind an AND is left (`settles_condition`). Nothing is missed beyond that OR, as a comparison looks no
  farther than the connective behind it (`looks_comparison`). So a chain has a tree if and only if no AND comes before an
  OR, and otherwise the error is at the first OR that has an AND before it (`ofText_chained`).
-/

namespace LineBasic

variable {α β : Type}

/-! ## Chains -/

/-- A text that is read as a comparison, and has no spaces at its end. -/
structure Clause where
  text : Text
  op : Comparison
  left : Expression
  right : Expression
  accepted : Condition.ofText text = .ok (.compare op left right)
  trimmed : text.getLast? ≠ some ' '

/-- A connective with spaces on both sides, and the comparison behind it. -/
structure Junction where
  connective : Connective
  before : Text
  after : Text
  clause : Clause
  spaces_before : Spaces before ∧ before ≠ []
  spaces_after : Spaces after ∧ after ≠ []

def Clause.condition (c : Clause) : Condition := .compare c.op c.left c.right

def Junction.text (l : Junction) : Text := l.before ++ l.connective.keyword.toList ++ l.after ++ l.clause.text

/-- The text of a clause and the junctions behind it. -/
def Clause.chain (c : Clause) (links : List Junction) : Text := c.text ++ links.flatMap Junction.text

/-- A clause is joined to everything behind it. -/
def Clause.tree : Clause → List Junction → Condition
  | c, [] => c.condition
  | c, l :: links => .connect l.connective c.condition (tree l.clause links)

/-- No AND comes before an OR. -/
def Unmixed (links : List Junction) : Prop :=
  links.Pairwise fun l l' => ¬ (l.connective = .and ∧ l'.connective = .or)

/-- Behind an AND there are only ANDs. -/
theorem Unmixed.behind_and {l : Junction} {links : List Junction} (h : Unmixed (l :: links)) (hl : l.connective = .and) :
    ∀ l' ∈ links, l'.connective = .and := by
  intro l' hl'
  have := (List.pairwise_cons.mp h).1 l' hl'
  cases hc : l'.connective with
  | and => rfl
  | or => exact absurd ⟨hl, hc⟩ this

/-- The first OR with an AND before it, if there is none in the junctions `done`. -/
theorem exists_stray {done links : List Junction} (hd : Unmixed done) (h : ¬ Unmixed (done ++ links)) :
    ∃ earlier stray later, done ++ links = earlier ++ stray :: later ∧ Unmixed earlier ∧
      (∃ l ∈ earlier, l.connective = .and) ∧ stray.connective = .or := by
  induction links generalizing done with
  | nil =>
    rw [List.append_nil] at h
    exact absurd hd h
  | cons l links ih =>
    have all : done ++ l :: links = (done ++ [l]) ++ links := by simp
    by_cases hl : Unmixed (done ++ [l])
    · rw [all] at h ⊢
      exact ih hl h
    · have hstray : ∃ l' ∈ done, l'.connective = .and ∧ l.connective = .or := by
        refine Classical.byContradiction fun hn => hl (List.pairwise_append.mpr ⟨hd, List.pairwise_singleton _ l, ?_⟩)
        intro l' hl' m hm hboth
        cases List.mem_singleton.mp hm
        exact hn ⟨l', hl', hboth⟩
      obtain ⟨l', hl', hand, hor⟩ := hstray
      exact ⟨done, l, links, rfl, hd, ⟨l', hl', hand⟩, hor⟩

namespace Rule

variable {p q : Rule α} {f : α → Rule β} {s t k a : Text} {v : α} {w : β}

/-! ## Rules that settle -/

/-- Where `s` and then `k` are ahead, `p` reads exactly `s`, finds `v`, and misses nothing beyond the next character of
    `k` that is no space. -/
def Settles (p : Rule α) (s : Text) (v : α) (k : Text) : Prop :=
  ∀ o, (p.run ⟨o, s ++ k⟩).outcome = .found v ⟨o + s.length, k⟩ ∧
    (p.run ⟨o, s ++ k⟩).Within (Cursor.ahead ⟨o + s.length, k⟩)

/-- Where `t` is ahead, `p` finds nothing, and misses nothing beyond the next character that is no space. -/
def Balks (p : Rule α) (t : Text) : Prop :=
  ∀ o, (p.run ⟨o, t⟩).outcome = .missing ∧ (p.run ⟨o, t⟩).Within (Cursor.ahead ⟨o, t⟩)

theorem settles_pure (v : α) : Settles (pure v) [] v k := fun _ => ⟨rfl, within_pure v⟩

theorem Settles.bind (hp : Settles p s v (t ++ k)) (hf : Settles (f v) t w k) : Settles (p >>= f) (s ++ t) w k := by
  intro o
  obtain ⟨found, within⟩ := hp o
  obtain ⟨found', within'⟩ := hf (o + s.length)
  have farther : Cursor.ahead ⟨o + s.length, t ++ k⟩ ≤ Cursor.ahead ⟨o + s.length + t.length, k⟩ :=
    Cursor.Reads.ahead_le (s := t) ⟨rfl, rfl⟩
  rw [List.append_assoc, List.length_append, ← Nat.add_assoc]
  exact ⟨found_bind.mpr ⟨v, _, found, found'⟩, within_behind found (within.mono farther) within'⟩

theorem Settles.bind_nil (hp : Settles p s v k) (hf : Settles (f v) [] w k) : Settles (p >>= f) s w k := by
  have := Settles.bind (t := []) (k := k) hp hf
  rwa [List.append_nil] at this

theorem Settles.orElse (hp : Settles p s v k) : Settles (p <|> q) s v k := by
  intro o
  obtain ⟨found, within⟩ := hp o
  exact ⟨found_orElse.mpr (.inl found), within_orElse_found found within⟩

theorem Balks.orElse (hp : Balks p (s ++ k)) (hq : Settles q s v k) : Settles (p <|> q) s v k := by
  intro o
  obtain ⟨missing, within⟩ := hp o
  obtain ⟨found, within'⟩ := hq o
  have farther : Cursor.ahead ⟨o, s ++ k⟩ ≤ Cursor.ahead ⟨o + s.length, k⟩ := Cursor.Reads.ahead_le (s := s) ⟨rfl, rfl⟩
  exact ⟨found_orElse.mpr (.inr ⟨missing, found⟩), within_orElse (within.mono farther) within'⟩

theorem settles_spaces (ha : Spaces a) (hk : Stops isSpace k) : Settles spaces a () k := by
  intro o
  have found := (takes_spaces (R := False) ha hk o).resolve_right fun h => h.1
  exact ⟨found, Reply.within_nil _ _⟩

theorem settles_literal (word : String) : Settles (literal word) word.toList () k := by
  intro o
  have found := run_literal (c := ⟨o, word.toList ++ k⟩) (List.prefix_append word.toList k)
  rw [found]
  refine ⟨?_, Reply.within_nil _ _⟩
  simp [Cursor.advance]

theorem balks_word {word : String} {g : Unit → Rule β} (ha : Spaces a) (hk : Stops isSpace k)
    (h : ¬ word.toList <+: k) : Balks (spaces >>= fun _ => literal word >>= g) (a ++ k) := by
  intro o
  have skip : Cursor.skip ⟨o, a ++ k⟩ = ⟨Cursor.ahead ⟨o, a ++ k⟩, k⟩ := by
    unfold Cursor.skip
    rw [dropWhile_run ha.isSpace hk]
  rw [run_skip, skip, run_no_mark h]
  refine ⟨rfl, fun m hm => ?_⟩
  cases List.mem_singleton.mp hm
  exact Nat.le_refl _

theorem Settles.takes {R : Prop} (h : Settles p s v k) : Takes R p s v k := fun o => .inl (h o).1

/-- If something is left of the text, the error is where it begins. -/
theorem Settles.parse_error (h : Settles p s v (a ++ k)) (ha : Spaces a) (hk : Stops isSpace k) (hne : k ≠ []) :
    ∃ e : ParseError, p.parse (s ++ (a ++ k)) = .error (.badText e) ∧ e.fatal = false ∧
      e.offset = s.length + a.length := by
  obtain ⟨found, within⟩ := h 0
  have skip : Cursor.skip ⟨0 + s.length, a ++ k⟩ = ⟨s.length + a.length, k⟩ := by
    unfold Cursor.skip Cursor.ahead
    rw [takeWhile_run ha.isSpace hk, dropWhile_run ha.isSpace hk, Nat.zero_add]
  have limit : Cursor.ahead ⟨0 + s.length, a ++ k⟩ = s.length + a.length := congrArg Cursor.offset skip
  have run : p.whole.run ⟨0, s ++ (a ++ k)⟩ =
      ⟨.missing, (p.run ⟨0, s ++ (a ++ k)⟩).misses ++ [⟨s.length + a.length, .endOfLine⟩]⟩ := by
    rw [run_whole found, skip, if_neg hne, limit]
  obtain ⟨-, reached, attained⟩ := (Frontier.start 0).farthest_recordAll (p.whole.run ⟨0, s ++ (a ++ k)⟩).misses
  refine ⟨_, parse_missing (by rw [run]), rfl, ?_⟩
  apply Nat.le_antisymm
  · rcases attained with h | ⟨m, hm, h⟩
    · exact Nat.le_trans (Nat.le_of_eq h) (Nat.zero_le _)
    · refine Nat.le_trans (Nat.le_of_eq h.symm) ?_
      rw [run] at hm
      rcases List.mem_append.mp hm with hm | hm
      · rw [← limit]
        exact within m hm
      · cases List.mem_singleton.mp hm
        exact Nat.le_refl _
  · exact reached ⟨s.length + a.length, .endOfLine⟩ (by rw [run]; simp)

end Rule

namespace Grammar

open Rule Spelling

variable {k : Text} {left d : Condition} {right : Rule Condition}

/-! ## Clauses and junctions -/

/-- Two expressions with the operator between them. -/
def Compares (op : Comparison) (l e : Expression) (u : Text) : Prop :=
  ∃ s a b r, Chain withinLimit s l ∧ Spaces a ∧ Spaces b ∧ Chain withinLimit r e ∧
    u = s ++ a ++ op.sign.toList ++ b ++ r

/-- A condition that is a comparison is read from the text of one. -/
theorem sound_condition_compare :
    Sound condition fun u v => ∀ op l e, v = .compare op l e → Compares op l e u := by
  have comparing : Sound comparison fun u v => ∃ op l e, v = .compare op l e ∧ Compares op l e u := by
    refine sound_expression.bind fun s l hl => sound_spaces.bind fun a _ ha => sound_comparisonOperator.bind ?_
    refine fun o op ho => sound_spaces.bind fun b _ hb => sound_expression.bind fun r e hr => sound_pure ?_
    exact ⟨op, l, e, rfl, s, a, b, r, hl, ha, hb, hr, by simp [ho]⟩
  rw [condition_eq]
  refine comparing.bind fun u v hv => .orElse ((sound_joined advances_conjunction.sound).mono fun t w hw => ?_)
    (.orElse ((sound_joined advances_condition.sound).mono fun t w hw => ?_) (sound_pure ?_))
  · obtain ⟨_, _, _, _, -, -, -, -, rfl⟩ := hw
    intro op l e h
    cases h
  · obtain ⟨_, _, _, _, -, -, -, -, rfl⟩ := hw
    intro op l e h
    cases h
  · obtain ⟨op, l, e, rfl, h⟩ := hv
    rintro _ _ _ ⟨⟩
    simpa using h

theorem clause_compares (c : Clause) : Compares c.op c.left c.right c.text := by
  obtain ⟨u, pad, hu, hpad, h⟩ := sound_condition_compare.parse c.accepted
  have none : pad = [] := by
    rcases List.eq_nil_or_concat pad with rfl | ⟨pad, x, rfl⟩
    · rfl
    · obtain rfl : x = ' ' := hpad x (by simp)
      exact absurd (by rw [hu]; simp) c.trimmed
  rw [hu, none, List.append_nil]
  exact h _ _ _ rfl

theorem clause_head (c : Clause) (k : Text) : Stops isSpace (c.text ++ k) := by
  obtain ⟨s, a, b, r, hs, -, -, -, hu⟩ := clause_compares c
  rw [hu, List.append_assoc, List.append_assoc, List.append_assoc, List.append_assoc]
  exact chain_head hs _

theorem settles_clause (c : Clause) (hk : Ends 4 k) (hu : Stops Char.isUpper k) :
    Settles comparison c.text c.condition k := by
  obtain ⟨s, a, b, r, hs, ha, hb, hr, htext⟩ := clause_compares c
  have takes := takes_comparing c.op hs ha hb hr hk
  rw [← htext] at takes
  intro o
  have found := (takes o).resolve_right fun h => not_long_withinLimit (h.1.long hu)
  exact ⟨found, looks_comparison found hk⟩

theorem keyword_head (op : Connective) (k : Text) : Stops isSpace (op.keyword.toList ++ k) := by
  cases op <;> simp [Connective.keyword, isSpace]

/-- A junction ends the clause before it. -/
theorem ends_junction (l : Junction) (k : Text) :
    Ends 4 (l.before ++ (l.connective.keyword.toList ++ k)) ∧
      Stops Char.isUpper (l.before ++ (l.connective.keyword.toList ++ k)) := by
  obtain ⟨hs, hne⟩ := l.spaces_before
  refine ⟨by simpa using ends_connective l.connective hs k, ?_⟩
  obtain ⟨x, t, ht⟩ := List.exists_cons_of_ne_nil hne
  have hx : x = ' ' := hs x (by simp [ht])
  simp [ht, hx]

theorem ends_junctions (links : List Junction) :
    Ends 4 (links.flatMap Junction.text) ∧ Stops Char.isUpper (links.flatMap Junction.text) := by
  cases links with
  | nil => exact ⟨spaces_ends spaces_nil, stops_nil _⟩
  | cons l links =>
    have := ends_junction l (l.after ++ (l.clause.text ++ links.flatMap Junction.text))
    simpa [Junction.text] using this

/-- Behind its connective the rest of a chain is a chain. -/
theorem text_junctions (l : Junction) (links : List Junction) :
    (l :: links).flatMap Junction.text = l.before ++ l.connective.keyword.toList ++ l.after ++ l.clause.chain links := by
  simp [Junction.text, Clause.chain]

theorem settles_joined (left : Condition) (l : Junction) {links : List Junction} (hr : Settles right (l.clause.chain links) d k) :
    Settles (joined l.connective l.connective.keyword left right) ((l :: links).flatMap Junction.text)
      (.connect l.connective left d) k := by
  have all : (l :: links).flatMap Junction.text =
      l.before ++ (l.connective.keyword.toList ++ (l.after ++ l.clause.chain links)) := by
    rw [text_junctions]
    simp
  have clauseHead : Stops isSpace (l.clause.chain links ++ k) := by
    unfold Clause.chain
    rw [List.append_assoc]
    exact clause_head l.clause _
  rw [all]
  refine .bind (v := ()) (settles_spaces l.spaces_before.1 ?_) (.bind (settles_literal _) ?_)
  · rw [List.append_assoc]
    exact keyword_head _ _
  · exact .bind (settles_spaces l.spaces_after.1 clauseHead) (hr.bind_nil (settles_pure _))

/-- Another connective than the next one is missed, and so is any at the end. -/
theorem balks_joined {op : Connective} {links : List Junction} (h : ∀ l ∈ links.head?, l.connective ≠ op) :
    Balks (joined op op.keyword left right) (links.flatMap Junction.text) := by
  cases links with
  | nil => exact balks_word (a := []) spaces_nil (stops_nil _) (by cases op <;> simp [Connective.keyword])
  | cons l links =>
    have other : l.connective ≠ op := h l rfl
    have apart : ¬ op.keyword.toList <+: l.connective.keyword.toList ++ (l.after ++ l.clause.chain links) := by
      rintro ⟨u, hu⟩
      cases op <;> cases hc : l.connective <;> simp [Connective.keyword, hc] at hu other
    have := balks_word (g := fun _ => do spaces; let d ← right; pure (Condition.connect op left d)) l.spaces_before.1
      (keyword_head l.connective (l.after ++ l.clause.chain links)) apart
    rw [text_junctions, List.append_assoc, List.append_assoc]
    exact this

/-! ## Chains -/

section Chains

variable {c : Clause} {earlier later : List Junction}

/-- ANDs are read up to an OR. -/
theorem settles_conjunction (ha : ∀ l ∈ earlier, l.connective = .and) (hl : ∀ l ∈ later.head?, l.connective ≠ .and) :
    Settles conjunction (c.chain earlier) (c.tree earlier) (later.flatMap Junction.text) := by
  induction earlier generalizing c with
  | nil =>
    obtain ⟨ends, noCapital⟩ := ends_junctions later
    have none : Balks (joined .and "AND" c.condition conjunction) (later.flatMap Junction.text) := balks_joined hl
    rw [conjunction_eq]
    exact .bind (settles_clause c ends noCapital) (none.orElse (settles_pure _))
  | cons l earlier ih =>
    have hand : l.connective = .and := ha l List.mem_cons_self
    obtain ⟨ends, noCapital⟩ := ends_junctions (l :: earlier ++ later)
    rw [List.flatMap_append] at ends noCapital
    have others : ∀ l' ∈ earlier, l'.connective = .and := fun l' hl' => ha l' (List.mem_cons_of_mem _ hl')
    have right := settles_joined c.condition l (ih others)
    rw [hand] at right
    rw [conjunction_eq, Clause.tree, hand]
    exact .bind (settles_clause c ends noCapital) (.orElse right)

/-- A chain is read up to an OR behind an AND. -/
theorem settles_condition (hu : Unmixed earlier)
    (hl : ∀ l ∈ later.head?, l.connective = .or ∧ ∃ l' ∈ earlier, l'.connective = .and) :
    Settles condition (c.chain earlier) (c.tree earlier) (later.flatMap Junction.text) := by
  have last : ∀ l ∈ later.head?, l.connective ≠ .and := by
    intro l hm
    simp [(hl l hm).1]
  induction earlier generalizing c with
  | nil =>
    obtain rfl : later = [] := by
      cases later with
      | nil => rfl
      | cons l later =>
        obtain ⟨-, l', hl', -⟩ := hl l rfl
        cases hl'
    have noConnective : ∀ op, ∀ l ∈ ([] : List Junction).head?, l.connective ≠ op := by simp
    have noAnd : Balks (joined .and "AND" c.condition conjunction) (([] : List Junction).flatMap Junction.text) :=
      balks_joined (noConnective .and)
    have noOr : Balks (joined .or "OR" c.condition condition) (([] : List Junction).flatMap Junction.text) :=
      balks_joined (noConnective .or)
    obtain ⟨ends, noCapital⟩ := ends_junctions []
    rw [condition_eq]
    exact .bind (settles_clause c ends noCapital) (noAnd.orElse (noOr.orElse (settles_pure _)))
  | cons l earlier ih =>
    obtain ⟨ends, noCapital⟩ := ends_junctions (l :: earlier ++ later)
    rw [List.flatMap_append] at ends noCapital
    rw [condition_eq, Clause.tree]
    refine .bind (settles_clause c ends noCapital) ?_
    cases hc : l.connective with
    | and =>
      have right := settles_joined c.condition l (settles_conjunction (hu.behind_and hc) last)
      rw [hc] at right
      exact .orElse right
    | or =>
      have noAnd : Balks (joined .and "AND" c.condition conjunction)
          ((l :: earlier).flatMap Junction.text ++ later.flatMap Junction.text) := by
        rw [← List.flatMap_append]
        exact balks_joined (by simp [hc])
      have right := settles_joined c.condition l (ih (List.pairwise_cons.mp hu).2 ?_)
      · rw [hc] at right
        exact noAnd.orElse (.orElse right)
      · -- The AND that is before what is left is no OR.
        intro s hs
        obtain ⟨hor, l', hl', hand⟩ := hl s hs
        refine ⟨hor, l', (List.mem_cons.mp hl').resolve_left ?_, hand⟩
        rintro rfl
        rw [hc] at hand
        cases hand

end Chains

end Grammar

open Grammar Rule

/-- A chain has a tree if and only if no AND comes before an OR, and then that tree is nested to the right. Otherwise
    the error is at the first OR that has an AND before it. -/
theorem ofText_chained (c : Clause) (links : List Junction) :
    (∀ t, Condition.ofText (c.chain links) = .ok t ↔ Unmixed links ∧ t = c.tree links) ∧
    (¬ Unmixed links → ∃ earlier stray later, links = earlier ++ stray :: later ∧ Unmixed earlier ∧
      (∃ l ∈ earlier, l.connective = .and) ∧ stray.connective = .or ∧
      ∃ e : ParseError, Condition.ofText (c.chain links) = .error (.badText e) ∧ e.fatal = false ∧
        e.offset = (c.chain earlier).length + stray.before.length) := by
  have read : Unmixed links → Condition.ofText (c.chain links) = .ok (c.tree links) := by
    intro hu
    have nothing : ∀ l ∈ ([] : List Junction).head?, l.connective = .or ∧ ∃ l' ∈ links, l'.connective = .and := by simp
    have settles : Settles condition (c.chain links) (c.tree links) [] := settles_condition hu nothing
    have := (Settles.takes (R := False) settles).parse spaces_nil id
    rwa [List.append_nil] at this
  have mixed : ¬ Unmixed links → ∃ earlier stray later, links = earlier ++ stray :: later ∧ Unmixed earlier ∧
      (∃ l ∈ earlier, l.connective = .and) ∧ stray.connective = .or ∧
      ∃ e : ParseError, Condition.ofText (c.chain links) = .error (.badText e) ∧ e.fatal = false ∧
        e.offset = (c.chain earlier).length + stray.before.length := by
    intro h
    obtain ⟨earlier, stray, later, hlinks, hu, hand, hor⟩ := exists_stray (List.Pairwise.nil : Unmixed []) h
    refine ⟨earlier, stray, later, hlinks, hu, hand, hor, ?_⟩
    have settles : Settles condition (c.chain earlier) (c.tree earlier) ((stray :: later).flatMap Junction.text) :=
      settles_condition hu (by simpa using ⟨hor, hand⟩)
    rw [text_junctions, List.append_assoc, List.append_assoc] at settles
    have left : stray.connective.keyword.toList ++ (stray.after ++ stray.clause.chain later) ≠ [] := by
      simp [hor, Connective.keyword]
    have all : c.chain links = c.chain earlier ++
        (stray.before ++ (stray.connective.keyword.toList ++ (stray.after ++ stray.clause.chain later))) := by
      obtain rfl : links = earlier ++ stray :: later := hlinks
      simp [Clause.chain, Junction.text]
    rw [all]
    exact settles.parse_error stray.spaces_before.1 (keyword_head _ _) left
  refine ⟨fun t => ⟨fun ht => ?_, ?_⟩, mixed⟩
  · by_cases hu : Unmixed links
    · rw [read hu] at ht
      cases ht
      exact ⟨hu, rfl⟩
    · obtain ⟨-, -, -, -, -, -, -, e, he, -⟩ := mixed hu
      rw [ht] at he
      cases he
  · rintro ⟨hu, rfl⟩
    exact read hu

/-- An AND and then an OR, with several spaces around them: the error is at the OR. The other way round the OR joins the
    first comparison to the two others. -/
theorem ofText_chained_mixed :
    ∃ (a b c : Clause) (l l' m m' : Junction), a.chain [l, l'] = "A=1 AND  B<>2  OR C=3".toList ∧
      a.chain [m, m'] = "A=1 OR B<>2 AND C=3".toList ∧
      (∃ e : ParseError, Condition.ofText "A=1 AND  B<>2  OR C=3".toList = .error (.badText e) ∧ e.offset = 15) ∧
      Condition.ofText "A=1 OR B<>2 AND C=3".toList =
        .ok (.connect .or a.condition (.connect .and b.condition c.condition)) := by
  let a : Clause := ⟨"A=1".toList, .equal, .scalar 'A', .integer 1, rfl, by decide⟩
  let b : Clause := ⟨"B<>2".toList, .notEqual, .scalar 'B', .integer 2, rfl, by decide⟩
  let c : Clause := ⟨"C=3".toList, .equal, .scalar 'C', .integer 3, rfl, by decide⟩
  have one : Spaces [' '] ∧ ([' '] : Text) ≠ [] := by simp [Spaces]
  have two : Spaces [' ', ' '] ∧ ([' ', ' '] : Text) ≠ [] := by simp [Spaces]
  let l : Junction := ⟨.and, [' '], [' ', ' '], b, one, two⟩
  let l' : Junction := ⟨.or, [' ', ' '], [' '], c, two, one⟩
  let m : Junction := ⟨.or, [' '], [' '], b, one, one⟩
  let m' : Junction := ⟨.and, [' '], [' '], c, one, one⟩
  have text : a.chain [l, l'] = "A=1 AND  B<>2  OR C=3".toList := by
    simp [Clause.chain, Junction.text, Connective.keyword, a, b, c, l, l']
  have text' : a.chain [m, m'] = "A=1 OR B<>2 AND C=3".toList := by
    simp [Clause.chain, Junction.text, Connective.keyword, a, b, c, m, m']
  refine ⟨a, b, c, l, l', m, m', text, text', ?_, ?_⟩
  · have mixed : ¬ Unmixed [l, l'] := fun h => (List.pairwise_cons.mp h).1 l' List.mem_cons_self ⟨rfl, rfl⟩
    obtain ⟨earlier, stray, later, hlinks, -, ⟨d, hd, hand⟩, hor, e, he, -, ho⟩ := (ofText_chained a [l, l']).2 mixed
    -- The stray OR is the second junction, as the AND before it is the first.
    obtain ⟨first, between, rfl⟩ := List.exists_cons_of_ne_nil (List.ne_nil_of_mem hd)
    obtain ⟨rfl, hrest⟩ := List.cons.inj hlinks
    obtain ⟨rfl, hstray⟩ : between = [] ∧ stray = l' := by
      cases between with
      | nil => exact ⟨rfl, (List.cons.inj hrest).1.symm⟩
      | cons _ _ => simp at hrest
    rw [text] at he
    rw [hstray] at ho
    exact ⟨e, he, ho.trans (by simp [Clause.chain, Junction.text, Connective.keyword, a, b, l, l'])⟩
  · have unmixed : Unmixed [m, m'] := by simp [Unmixed, m, m']
    rw [← text']
    exact ((ofText_chained a [m, m']).1 _).mpr ⟨unmixed, rfl⟩

end LineBasic
