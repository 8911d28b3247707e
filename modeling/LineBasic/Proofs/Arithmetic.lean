import LineBasic.Grammar.Reading
import LineBasic.Proofs.Recursion
import LineBasic.Proofs.Spelling

/-
  LineBasic.Proofs.Arithmetic — the arithmetic rules read exactly the texts that spell an expression.

  (1) Whatever the rule for expressions finds, the text it read spells it (`sound_expression`).
  (2) It reads every text that spells an expression, up to its end and with the tree that the text spells, if what comes
      behind does not go on with the expression (`takes_expression`). Two things can come between: an integer with too
      many digits, and a capital behind a name, which may turn the name into that of an unknown function.
  (3) So a text without too long a run of digits has a tree if and only if it spells it.
-/

namespace LineBasic

namespace Grammar

open Rule Spelling

variable {R : Prop} {fits : Text → Prop} {L : Text → Expression → Prop} {expr atom operand : Rule Expression}

/-! ## (1) What is found -/

/-- Runs of digits that an integer may have. -/
def withinLimit (w : Text) : Prop := w.length ≤ digitLimit

theorem sound_parenthesised (h : Sound expr L) :
    Sound (parenthesised expr) fun u e =>
      ∃ a s b, Spaces a ∧ L s e ∧ Spaces b ∧ u = ['('] ++ a ++ s ++ b ++ [')'] := by
  refine (sound_literal "(").bind fun p _ hp => sound_spaces.bind fun a _ ha => h.bind fun s e hs => ?_
  refine sound_spaces.bind fun b _ hb => (sound_literal ")").bind fun q _ hq => sound_pure ?_
  exact ⟨a, s, b, ha, hs, hb, by simp [hp, hq]⟩

theorem builtIn?_some {name : Text} {f : BuiltIn} (h : builtIn? name = some f) : name = f.spelling.toList := by
  unfold builtIn? at h
  split at h
  · cases h
    assumption
  · split at h
    · cases h
      assumption
    · cases h

theorem sound_functionCall (h : Sound expr (Chain fits)) : Sound (functionCall expr) (Atom fits) := by
  refine sound_here fun start => sound_functionName.bind fun n name hn => ?_
  split
  · rename_i f hf
    refine (sound_parenthesised h).bind fun u e hu => sound_pure ?_
    obtain ⟨a, s, b, ha, hs, hb, rfl⟩ := hu
    rw [hn.1, builtIn?_some hf, List.append_nil]
    exact .call f ha hs hb
  · exact sound_abort _

theorem sound_negation (h : Sound atom (Atom fits)) : Sound (negation atom) (Atom fits) := by
  refine (sound_literal "-").bind fun p _ hp => sound_spaces.bind fun a _ ha => h.bind fun s e hs => sound_pure ?_
  have := Atom.negation ha hs
  simpa [hp] using this

theorem sound_indices (h : Sound expr (Chain fits)) :
    Sound (separated "," expr) fun s es => Indices fits s es ∧ es ≠ [] := by
  refine .fix fun items hi => h.bind fun s e hs => ?_
  have hsep : Sound (do spaces; literal ","; spaces) fun u _ => ∃ a b, Spaces a ∧ Spaces b ∧ u = a ++ [','] ++ b := by
    refine sound_spaces.bind fun a _ ha => (sound_literal ",").bind fun p _ hp => sound_spaces.mono fun b _ hb => ?_
    exact ⟨a, b, ha, hb, by simp [hp]⟩
  refine hsep.succeeds.bind fun u sep hu => ?_
  cases sep with
  | true =>
    obtain ⟨a, b, ha, hb, rfl⟩ := hu
    refine hi.bind fun r es hr => sound_pure ?_
    obtain ⟨e', es, rfl⟩ := List.exists_cons_of_ne_nil hr.2
    have := Indices.more hs ha hb hr.1
    exact ⟨by simpa using this, by simp⟩
  | false =>
    obtain rfl : u = [] := hu
    exact sound_pure ⟨by simpa using Indices.last hs, by simp⟩

/-- The indices that `fourIndices` keeps are the first four of those that are there and as many zeros as it takes. -/
theorem fourIndices_eq (c : Char) (es : List Expression) :
    ∃ i j k l, (es ++ List.replicate 4 (Expression.integer 0)).take 4 = [i, j, k, l] ∧
      fourIndices c es = ⟨c, i, j, k, l⟩ := by
  match es with
  | [] => exact ⟨_, _, _, _, rfl, rfl⟩
  | [a] => exact ⟨_, _, _, _, rfl, rfl⟩
  | [a, b] => exact ⟨_, _, _, _, rfl, rfl⟩
  | [a, b, d] => exact ⟨_, _, _, _, rfl, rfl⟩
  | a :: b :: d :: e :: es => exact ⟨a, b, d, e, by simp, rfl⟩

theorem sound_arrayReferenceOf (h : Sound expr (Chain fits)) : Sound (arrayReferenceOf expr) (Element fits) := by
  refine sound_letter.bind fun n c hc => (sound_literal "(").bind fun p _ hp => sound_spaces.bind fun a _ ha => ?_
  have hs : Sound (separated "," expr <|> pure []) (Indices fits) :=
    ((sound_indices h).mono fun _ _ h => h.1).orElse (sound_pure .none)
  refine hs.bind fun s es hs => sound_spaces.bind fun b _ hb => (sound_literal ")").bind fun q _ hq => sound_pure ?_
  obtain ⟨i, j, k, l, hi, he⟩ := fourIndices_eq c es
  have := Element.indexed hc.2 ha hs hb hi
  simpa [hc.1, hp, hq, he] using this

theorem sound_atomOf (h : Sound expr (Chain withinLimit)) : Sound (atomOf expr) (Atom withinLimit) := by
  refine .fix fun atom ha => .firstOf fun p hp => ?_
  simp only [atomAlternatives, List.mem_cons, List.not_mem_nil, or_false] at hp
  rcases hp with rfl | rfl | rfl | rfl | rfl | rfl | rfl
  · refine (sound_parenthesised h).mono fun u e hu => ?_
    obtain ⟨a, s, b, ha, hs, hb, rfl⟩ := hu
    exact .parenthesised ha hs hb
  · exact sound_functionCall h
  · exact sound_negation ha
  · refine sound_real.bind fun s x hx => sound_pure ?_
    obtain ⟨w, f, hw, hf, rfl, rfl⟩ := hx
    simpa using Atom.real hw hf
  · refine sound_integer.bind fun s n hn => sound_pure ?_
    obtain ⟨hd, hl, rfl⟩ := hn
    simpa using Atom.integer hd hl
  · refine (sound_arrayReferenceOf h).bind fun s a hs => sound_pure ?_
    simpa using Atom.element hs
  · refine sound_letter.bind fun s c hc => sound_pure ?_
    simpa [hc.1] using Atom.scalar hc.2

/-! ### Levels -/

theorem links_append {r r' : Text} {links links' : List Link} (h : Links fits r links) (h' : Links fits r' links') :
    Links fits (r ++ r') (links ++ links') := by
  induction links generalizing r with
  | nil =>
    cases h
    exact h'
  | cons l links ih =>
    cases h with
    | more op ha hb hs hr =>
      have := Links.more op ha hb hs (ih hr)
      simpa using this

/-- Chains with operators of a looseness below `n` only. -/
def ChainBelow (fits : Text → Prop) (n : Nat) (u : Text) (e : Expression) : Prop :=
  ∃ s x r links, Atom fits s x ∧ Links fits r links ∧ (∀ l ∈ links, l.1.looseness < n) ∧ u = s ++ r ∧
    e = chainTree x links

theorem sound_level {op : BinaryOp} {symbol : String} (hsym : symbol.toList = [op.sign])
    (h : Sound operand (ChainBelow fits op.looseness)) :
    Sound (level op symbol operand) (ChainBelow fits (op.looseness + 1)) := by
  refine .fix fun same hsame => h.bind fun u left hu => ?_
  obtain ⟨s, x, r, links, hs, hr, hl, rfl, rfl⟩ := hu
  refine .orElse ?_ (sound_pure ⟨s, x, r, links, hs, hr, fun l hm => Nat.lt_succ_of_lt (hl l hm), by simp, rfl⟩)
  refine sound_spaces.bind fun a _ ha => (sound_literal symbol).bind fun p _ hp => sound_spaces.bind fun b _ hb => ?_
  refine hsame.bind fun v right hv => sound_pure ?_
  obtain ⟨t, y, r', links', ht, hr', hl', rfl, rfl⟩ := hv
  refine ⟨s, x, r ++ (a ++ [op.sign] ++ b ++ t ++ r'), links ++ (op, y) :: links', hs,
    links_append hr (.more op ha hb ht hr'), ?_, by simp [hp, hsym], ?_⟩
  · intro l hm
    rcases List.mem_append.mp hm with hm | hm
    · exact Nat.lt_succ_of_lt (hl l hm)
    · rcases List.mem_cons.mp hm with rfl | hm
      · exact Nat.lt_succ_self _
      · exact hl' l hm
  · exact (chainTree_append hl fun l hm => Nat.le_of_lt_succ (hl' l hm)).symm

theorem sound_operators (h : Sound atom (Atom fits)) : Sound (operators atom) (Chain fits) := by
  have h0 : Sound atom (ChainBelow fits 0) := h.mono fun s x hs =>
    ⟨s, x, [], [], hs, .none, by simp, by simp, (chainTree_nil x).symm⟩
  have h1 : Sound (level .multiply "*" atom) (ChainBelow fits 1) := sound_level rfl h0
  have h2 : Sound (level .divide "/" (level .multiply "*" atom)) (ChainBelow fits 2) := sound_level rfl h1
  have h3 : Sound (level .add "+" (level .divide "/" (level .multiply "*" atom))) (ChainBelow fits 3) :=
    sound_level rfl h2
  have h4 : Sound (operators atom) (ChainBelow fits 4) := sound_level rfl h3
  refine h4.mono fun u e hu => ?_
  obtain ⟨s, x, r, links, hs, hr, -, rfl, rfl⟩ := hu
  exact .chain hs hr

/-- Whatever is found as an expression, the text that was read spells it. -/
theorem sound_expression : Sound expression (Chain withinLimit) :=
  .fix fun _ h => sound_operators (sound_atomOf h)

theorem sound_arrayReference : Sound arrayReference (Element withinLimit) := sound_arrayReferenceOf sound_expression

/-! ## (2) What is sure to be found -/

/-- What would go on with an atom: digits and a point with a number, a parenthesis with a name, and an N with the names
    I and R, which are the first letters of INT and RND. -/
def clings (c : Char) : Bool := c.isDigit || c = '.' || c = '(' || c = 'N'

/-- No operator of a looseness below `n` is next, and nothing that goes on with an atom. -/
def Ends (n : Nat) (k : Text) : Prop :=
  Stops clings k ∧ ∀ op : BinaryOp, op.looseness < n → (k.dropWhile isSpace).head? ≠ some op.sign

/-- Some integer may be too long. -/
def Long (fits : Text → Prop) : Prop := ∃ w, fits w ∧ digitLimit < w.length

/-- What may abort the reading of a text before `k`. -/
def Risk (fits : Text → Prop) (k : Text) : Prop := Long fits ∨ ¬ Stops Char.isUpper k

theorem Risk.long {k : Text} (h : Risk fits k) (hk : Stops Char.isUpper k) : Long fits :=
  h.resolve_right fun hn => hn hk

theorem stops_spaces {p : Char → Bool} {b k : Text} {c : Char} (hb : Spaces b) (hp : p ' ' = false) (hc : p c = false) :
    Stops p (b ++ c :: k) := by
  cases b with
  | nil => simpa using hc
  | cons d b =>
    obtain rfl : d = ' ' := hb d (by simp)
    simpa using hp

theorem dropWhile_spaces {b k : Text} {c : Char} (hb : Spaces b) (hc : isSpace c = false) :
    (b ++ c :: k).dropWhile isSpace = c :: k :=
  dropWhile_run hb.isSpace (by simpa using hc)

theorem ends_spaces {n : Nat} {b k : Text} {c : Char} (hb : Spaces b) (hs : isSpace c = false) (hc : clings c = false)
    (hop : ∀ op : BinaryOp, op.looseness < n → c ≠ op.sign) : Ends n (b ++ c :: k) := by
  refine ⟨stops_spaces hb (by decide) hc, fun op ho => ?_⟩
  rw [dropWhile_spaces hb hs]
  simpa using hop op ho

/-- What an expression may begin with. -/
def begins (c : Char) : Bool := c.isAlpha || c.isDigit || c = '(' || c = '-'

theorem atom_begins {s : Text} {e : Expression} (h : Atom fits s e) : ∃ c t, s = c :: t ∧ begins c = true := by
  have digits : ∀ w k : Text, Digits w → ∃ c t, w ++ k = c :: t ∧ begins c = true := by
    intro w k hw
    obtain ⟨c, w, rfl⟩ := List.exists_cons_of_ne_nil hw.1
    exact ⟨c, w ++ k, rfl, by simp [begins, hw.2 c]⟩
  cases h with
  | parenthesised => exact ⟨'(', _, rfl, by decide⟩
  | call f =>
    cases f with
    | int => exact ⟨'I', _, rfl, by decide⟩
    | rnd => exact ⟨'R', _, rfl, by decide⟩
  | negation => exact ⟨'-', _, rfl, by decide⟩
  | real hw =>
    rw [List.append_assoc]
    exact digits _ _ hw
  | integer hw =>
    have := digits s [] hw
    rwa [List.append_nil] at this
  | scalar hc => exact ⟨_, [], rfl, by simp [begins, hc]⟩
  | element h =>
    cases h with
    | indexed hc => exact ⟨_, _, rfl, by simp [begins, hc]⟩

theorem atom_head {s : Text} {e : Expression} (h : Atom fits s e) (k : Text) : Stops isSpace (s ++ k) := by
  obtain ⟨c, t, rfl, hc⟩ := atom_begins h
  have noSpace : c ≠ ' ' := by
    rintro rfl
    simp [begins] at hc
  simpa [isSpace] using noSpace

theorem digits_head {w : Text} (h : Digits w) (k : Text) : Stops isSpace (w ++ k) := by
  have number : Atom (fun _ => True) w _ := .integer h trivial
  exact atom_head number k

theorem letter_head {c : Char} (hc : c.isAlpha = true) (k : Text) : Stops isSpace (c :: k) := by
  have name : Atom (fun _ => True) [c] _ := .scalar hc
  exact atom_head name k

theorem chain_begins {s : Text} {e : Expression} (h : Chain fits s e) : ∃ c t, s = c :: t ∧ begins c = true := by
  cases h with
  | @chain s x r links hs _ =>
    obtain ⟨c, t, rfl, hc⟩ := atom_begins hs
    exact ⟨c, t ++ r, rfl, hc⟩

theorem chain_head {s : Text} {e : Expression} (h : Chain fits s e) (k : Text) : Stops isSpace (s ++ k) := by
  cases h with
  | chain hs _ =>
    rw [List.append_assoc]
    exact atom_head hs _

/-! ### Levels -/

/-- The rule reads the chains of fewer than `N` characters with operators of a looseness below `n` only. -/
def TakesChains (fits : Text → Prop) (N n : Nat) (rule : Rule Expression) : Prop :=
  ∀ s x r links k, Atom fits s x → Links fits r links → (∀ l ∈ links, l.1.looseness < n) → (s ++ r).length < N →
    Ends n k → Takes (Risk fits k) rule (s ++ r) (chainTree x links) k

theorem links_split {r : Text} {before after : List Link} {op : BinaryOp} {y : Expression}
    (h : Links fits r (before ++ (op, y) :: after)) :
    ∃ r₁ a b t r₂, r = r₁ ++ (a ++ [op.sign] ++ b ++ t ++ r₂) ∧ Links fits r₁ before ∧ Spaces a ∧ Spaces b ∧
      Atom fits t y ∧ Links fits r₂ after := by
  induction before generalizing r with
  | nil =>
    cases h with
    | more op ha hb hs hr => exact ⟨[], _, _, _, _, by simp, .none, ha, hb, hs, hr⟩
  | cons l before ih =>
    cases h with
    | more op' ha hb hs hr =>
      obtain ⟨r₁, a, b, t, r₂, rfl, h1, h2, h3, h4, h5⟩ := ih hr
      exact ⟨_, a, b, t, r₂, by simp, .more op' ha hb hs h1, h2, h3, h4, h5⟩

theorem looseness_inj {o o' : BinaryOp} (h : o.looseness = o'.looseness) : o = o' := by
  cases o <;> cases o' <;> first | rfl | cases h

/-- An operator that is no looser than another one and is not that one is tighter. -/
theorem looseness_below {o op : BinaryOp} (h : o.looseness < op.looseness + 1) (hne : o ≠ op) :
    o.looseness < op.looseness := by
  have : o.looseness ≠ op.looseness := fun he => hne (looseness_inj he)
  omega

theorem sign_stops (op : BinaryOp) :
    isSpace op.sign = false ∧ clings op.sign = false ∧ op.sign.isUpper = false := by
  cases op <;> decide

theorem Ends.mono {m n : Nat} {k : Text} (h : Ends n k) (hm : m ≤ n) : Ends m k :=
  ⟨h.1, fun op ho => h.2 op (by omega)⟩

/-- What comes behind the links before an operator. -/
theorem ends_sign {op : BinaryOp} {a k : Text} (ha : Spaces a) :
    Ends op.looseness (a ++ op.sign :: k) ∧ Stops Char.isUpper (a ++ op.sign :: k) := by
  obtain ⟨h1, h2, h3⟩ := sign_stops op
  refine ⟨ends_spaces ha h1 h2 fun o ho he => ?_, stops_spaces ha (by decide) h3⟩
  cases op <;> cases o <;> simp_all [BinaryOp.sign, BinaryOp.looseness]

theorem takes_level {N : Nat} {op : BinaryOp} {symbol : String} (hsym : symbol.toList = [op.sign])
    (ho : Advances operand) (h : TakesChains fits N op.looseness operand) :
    TakesChains fits N (op.looseness + 1) (level op symbol operand) := by
  have hne : symbol.toList ≠ [] := by simp [hsym]
  -- The links after the first `op` are fewer, and all before it are for the operand.
  suffices ∀ m s x r links k, links.length < m → Atom fits s x → Links fits r links →
      (∀ l ∈ links, l.1.looseness < op.looseness + 1) → (s ++ r).length < N → Ends (op.looseness + 1) k →
      Takes (Risk fits k) (level op symbol operand) (s ++ r) (chainTree x links) k from
    fun s x r links k => this (links.length + 1) s x r links k (Nat.lt_succ_self _)
  intro m
  induction m with
  | zero => exact fun s x r links k hm => absurd hm (Nat.not_lt_zero _)
  | succ m ih =>
    intro s x r links k hm hs hr hl hN hk
    rw [level_eq hne ho]
    cases hsplit : splitAtFirst op links with
    | none =>
      have tight : ∀ l ∈ links, l.1.looseness < op.looseness :=
        fun l hlm => looseness_below (hl l hlm) (splitAtFirst_eq_none hsplit l hlm)
      have left := h s x r links k hs hr tight hN (hk.mono (Nat.le_succ _))
      have tail : Skips (Risk fits k) (do
          spaces; literal symbol; spaces
          let right ← level op symbol operand
          pure (Expression.binary op (chainTree x links) right)) k :=
        skips_spaces_literal hsym (hk.2 op (Nat.lt_succ_self _))
      exact left.bind_nil (tail.orElse_takes takes_pure)
    | some parts =>
      obtain ⟨before, y, after⟩ := parts
      obtain ⟨rfl, hne'⟩ := splitAtFirst_some hsplit
      obtain ⟨r₁, a, b, t, r₂, rfl, hr₁, ha, hb, ht, hr₂⟩ := links_split hr
      have tight : ∀ l ∈ before, l.1.looseness < op.looseness :=
        fun l hlm => looseness_below (hl l (by simp [hlm])) (hne' l hlm)
      have loose : ∀ l ∈ after, l.1.looseness < op.looseness + 1 := fun l hlm => hl l (by simp [hlm])
      rw [chainTree_append tight fun l hlm => Nat.le_of_lt_succ (loose l hlm)]
      obtain ⟨ends, noName⟩ := ends_sign (k := b ++ (t ++ r₂) ++ k) ha
      have left : Takes (Risk fits k) operand (s ++ r₁) _ _ :=
        (h s x r₁ before _ hs hr₁ tight (by simp at hN ⊢; omega) ends).mono fun hrisk => .inl (hrisk.long noName)
      have right := ih t y r₂ after k (by simp at hm; omega) ht hr₂ loose (by simp at hN ⊢; omega) hk
      have mark : ∀ l, Takes (Risk fits k) (literal symbol) [op.sign] () l := fun _ => hsym ▸ takes_literal symbol
      have tail : Takes (Risk fits k) (do
          spaces; literal symbol; spaces
          let right ← level op symbol operand
          pure (Expression.binary op (chainTree x before) right))
          (a ++ ([op.sign] ++ (b ++ (t ++ r₂))))
          (.binary op (chainTree x before) (chainTree y after)) k := by
        refine .bind (takes_spaces ha ?_) (.bind (mark _) (.bind (takes_spaces hb ?_) (right.bind_nil takes_pure)))
        · simpa using (sign_stops op).1
        · simpa using atom_head ht (r₂ ++ k)
      have all : s ++ (r₁ ++ (a ++ [op.sign] ++ b ++ t ++ r₂)) =
          (s ++ r₁) ++ (a ++ ([op.sign] ++ (b ++ (t ++ r₂)))) := by simp
      rw [all]
      exact Takes.bind (by simpa using left) tail.orElse

/-- The rule reads the atoms of fewer than `N` characters. -/
def TakesAtoms (fits : Text → Prop) (N : Nat) (rule : Rule Expression) : Prop :=
  ∀ s e k, Atom fits s e → s.length < N → Stops clings k → Takes (Risk fits k) rule s e k

/-- The rule reads the expressions of fewer than `N` characters. -/
def TakesExpressions (fits : Text → Prop) (N : Nat) (rule : Rule Expression) : Prop :=
  ∀ s e k, Chain fits s e → s.length < N → Ends 4 k → Takes (Risk fits k) rule s e k

theorem looseness_lt (op : BinaryOp) : op.looseness < 4 := by cases op <;> decide

theorem takes_operators {N : Nat} (ha : Advances atom) (h : TakesAtoms fits N atom) :
    TakesExpressions fits N (operators atom) := by
  have h0 : TakesChains fits N 0 atom := by
    intro s x r links k hs hr hl hN hk
    cases hr with
    | none =>
      rw [chainTree_nil, List.append_nil]
      exact h s x k hs (by simpa using hN) hk.1
    | more op => exact absurd (hl _ List.mem_cons_self) (Nat.not_lt_zero _)
  have a1 : Advances (level .multiply "*" atom) := advances_level (by simp) ha
  have a2 : Advances (level .divide "/" (level .multiply "*" atom)) := advances_level (by simp) a1
  have a3 : Advances (level .add "+" (level .divide "/" (level .multiply "*" atom))) := advances_level (by simp) a2
  have h1 : TakesChains fits N (BinaryOp.multiply.looseness + 1) (level .multiply "*" atom) := takes_level rfl ha h0
  have h2 : TakesChains fits N (BinaryOp.divide.looseness + 1) (level .divide "/" _) := takes_level rfl a1 h1
  have h3 : TakesChains fits N (BinaryOp.add.looseness + 1) (level .add "+" _) := takes_level rfl a2 h2
  have h4 : TakesChains fits N (BinaryOp.subtract.looseness + 1) (operators atom) := takes_level rfl a3 h3
  intro s e k hs hN hk
  cases hs with
  | chain hs hr => exact h4 _ _ _ _ k hs hr (fun l _ => looseness_lt l.1) hN hk

/-! ### Parentheses, calls and indices -/

/-- A comma or a closing parenthesis ends an expression, behind spaces too. -/
theorem ends_mark {c : Char} {b k : Text} (hc : c = ')' ∨ c = ',') (hb : Spaces b) :
    Ends 4 (b ++ c :: k) ∧ Stops Char.isUpper (b ++ c :: k) := by
  have noSign : ∀ op : BinaryOp, c ≠ op.sign := by
    intro op
    rcases hc with rfl | rfl <;> cases op <;> decide
  have mark : isSpace c = false ∧ clings c = false ∧ c.isUpper = false := by
    rcases hc with rfl | rfl <;> decide
  exact ⟨ends_spaces hb mark.1 mark.2.1 fun op _ => noSign op, stops_spaces hb (by decide) mark.2.2⟩

theorem indices_head {s : Text} {es : List Expression} (h : Indices fits s es) (hne : es ≠ []) (k : Text) :
    Stops isSpace (s ++ k) := by
  cases h with
  | none => exact absurd rfl hne
  | last hs => exact chain_head hs k
  | more hs =>
    rw [List.append_assoc, List.append_assoc, List.append_assoc, List.append_assoc]
    exact chain_head hs _

section Inner

variable {N : Nat} (h : TakesExpressions fits N expr)

include h

/-- Inside parentheses only a long integer can come between. -/
theorem takes_before_mark {c : Char} {s b k : Text} {e : Expression} (hc : c = ')' ∨ c = ',') (hs : Chain fits s e)
    (hN : s.length < N) (hb : Spaces b) : Takes (Long fits) expr s e (b ++ c :: k) := by
  obtain ⟨ends, noCapital⟩ := ends_mark (k := k) hc hb
  exact (h s e _ hs hN ends).mono fun hrisk => hrisk.long noCapital

theorem takes_parenthesised {a s b k : Text} {e : Expression} (ha : Spaces a) (hs : Chain fits s e) (hb : Spaces b)
    (hN : s.length < N) : Takes (Long fits) (parenthesised expr) (['('] ++ a ++ s ++ b ++ [')']) e k := by
  have all : ['('] ++ a ++ s ++ b ++ [')'] = "(".toList ++ (a ++ (s ++ (b ++ ")".toList))) := by simp
  have inner : Takes (Long fits) expr s e (b ++ ")".toList ++ k) := by
    simpa using takes_before_mark h (.inl rfl) hs hN hb
  rw [all]
  refine .bind (takes_literal _) (.bind (takes_spaces ha ?_) (.bind inner (.bind (takes_spaces hb ?_) ?_)))
  · simpa using chain_head hs (b ++ ')' :: k)
  · simp [isSpace]
  · exact .bind_nil (takes_literal _) takes_pure

theorem takes_functionCall {a s b k : Text} {e : Expression} (f : BuiltIn) (ha : Spaces a) (hs : Chain fits s e)
    (hb : Spaces b) (hN : s.length < N) :
    Takes (Long fits) (functionCall expr) (f.spelling.toList ++ (['('] ++ a ++ s ++ b ++ [')'])) (.call f e) k := by
  have name : builtIn? f.spelling.toList = some f := by cases f <;> rfl
  have upper : ∀ c ∈ f.spelling.toList, c.isUpper = true := by cases f <;> simp [BuiltIn.spelling]
  have long : 2 ≤ f.spelling.toList.length := by cases f <;> simp [BuiltIn.spelling]
  refine takes_here fun start => ?_
  refine .bind (by simpa using takes_functionName upper long) ?_
  rw [name]
  exact (takes_parenthesised h ha hs hb hN).bind_nil takes_pure

theorem takes_indices (he : Advances expr) {es : List Expression} {s b k : Text} (hs : Indices fits s es)
    (hne : es ≠ []) (hN : s.length < N) (hb : Spaces b) :
    Takes (Long fits) (separated "," expr) s es (b ++ ')' :: k) := by
  induction es generalizing s with
  | nil => exact absurd rfl hne
  | cons e es ih =>
    rw [separated_eq (by simp) he]
    cases hs with
    | last hs =>
      have first := takes_before_mark (k := k) h (.inl rfl) hs hN hb
      have noComma : Skips (Long fits) (do spaces; literal ","; spaces) (b ++ ')' :: k) :=
        skips_spaces_literal (c := ',') rfl (by rw [dropWhile_spaces hb (by decide)]; simp)
      exact first.bind_nil (.bind_nil noComma.succeeds takes_pure)
    | @more t _ a₁ b₁ r e' es h₁ ha hb₁ hr =>
      have hlen : t.length < N ∧ r.length < N := by simp at hN; omega
      have others := ih hr (by simp) hlen.2
      have first := takes_before_mark (k := b₁ ++ r ++ b ++ ')' :: k) h (.inr rfl) h₁ hlen.1 ha
      have head : Stops isSpace (r ++ (b ++ ')' :: k)) := indices_head hr (by simp) _
      have comma : Takes (Long fits) (do spaces; literal ","; spaces) (a₁ ++ (",".toList ++ b₁)) ()
          (r ++ (b ++ ')' :: k)) :=
        .bind (takes_spaces ha (by simp [isSpace])) (.bind (takes_literal _) (takes_spaces hb₁ head))
      have all : t ++ a₁ ++ [','] ++ b₁ ++ r = t ++ ((a₁ ++ (",".toList ++ b₁)) ++ r) := by simp
      rw [all]
      exact Takes.bind (by simpa using first) (.bind comma.succeeds (.bind_nil others takes_pure))

/-- An element of an array is read to its closing parenthesis, whatever comes behind. -/
theorem takes_arrayReferenceOf (he : Advances expr) (hx : ∀ k, Skips (Long fits) expr (')' :: k)) {s k : Text}
    {r : ArrayReference} (hs : Element fits s r) (hN : s.length < N + 3) :
    Takes (Long fits) (arrayReferenceOf expr) s r k := by
  cases hs with
  | @indexed c a s b es i j k' l hc ha hs hb hi =>
    have value : fourIndices c es = ⟨c, i, j, k', l⟩ := by
      obtain ⟨i', j', k'', l', h1, h2⟩ := fourIndices_eq c es
      rw [hi] at h1
      cases h1
      exact h2
    rw [← value]
    cases es with
    | nil =>
      obtain rfl : s = [] := by cases hs; rfl
      have noIndex : Takes (Long fits) (separated "," expr <|> pure []) [] [] (')' :: k) := by
        refine Skips.orElse_takes ?_ takes_pure
        rw [separated_eq (by simp) he]
        exact (hx k).bind
      have all : [c, '('] ++ a ++ [] ++ b ++ [')'] = [c] ++ ("(".toList ++ ((a ++ b) ++ ([] ++ ([] ++ ")".toList)))) := by
        simp
      have hab : Spaces (a ++ b) := fun d hd => (List.mem_append.mp hd).elim (ha d) (hb d)
      rw [all]
      refine .bind (takes_letter hc) (.bind (takes_literal _) (.bind (takes_spaces hab (by simp [isSpace])) ?_))
      exact .bind noIndex (.bind (takes_no_space (by simp [isSpace])) (.bind_nil (takes_literal _) takes_pure))
    | cons e es =>
      have indices : Takes (Long fits) (separated "," expr <|> pure []) s (e :: es) (b ++ ")".toList ++ k) := by
        have := takes_indices h he hs (by simp) (by simp at hN; omega) hb (k := k)
        exact .orElse (by simpa using this)
      have head : Stops isSpace (s ++ (b ++ ")".toList) ++ k) := by
        rw [List.append_assoc]
        exact indices_head hs (by simp) _
      have all : [c, '('] ++ a ++ s ++ b ++ [')'] = [c] ++ ("(".toList ++ (a ++ (s ++ (b ++ ")".toList)))) := by simp
      rw [all]
      refine .bind (takes_letter hc) (.bind (takes_literal _) (.bind (takes_spaces ha head) (.bind indices ?_)))
      exact .bind (takes_spaces hb (by simp [isSpace])) (.bind_nil (takes_literal _) takes_pure)

end Inner

/-! ### What is not there -/

theorem skips_parenthesised {t : Text} (h : t.head? ≠ some '(') : Skips R (parenthesised expr) t :=
  (skips_literal_char rfl h).bind

theorem skips_functionCall {t : Text} (h : Stops Char.isUpper t) : Skips R (functionCall expr) t :=
  skips_here fun _ => (skips_functionName h).bind

theorem skips_negation {t : Text} (h : t.head? ≠ some '-') : Skips R (negation atom) t :=
  (skips_literal_char rfl h).bind

theorem skips_arrayReferenceOf {c : Char} {t : Text} (h : t.head? ≠ some '(') :
    Skips R (arrayReferenceOf expr) (c :: t) := by
  by_cases hc : c.isAlpha = true
  · exact (takes_letter hc).bind_skips (skips_literal_char rfl h).bind
  · exact (skips_letter (by simpa using hc)).bind

/-- A letter before anything but a parenthesis or an N begins no call, unless a capital after it makes one that
    aborts. -/
theorem skips_functionCall_letter {c : Char} {k : Text} (hk : Stops clings k) :
    Skips (¬ Stops Char.isUpper k) (functionCall expr) (c :: k) := by
  by_cases hu : Stops Char.isUpper k
  · exact skips_here fun _ => (skips_functionName_single hu).bind
  · refine skips_here fun start => ?_
    intro o
    rw [run_bind, Reply.outcome_andThen]
    cases hn : (functionName.run ⟨o, c :: k⟩).outcome with
    | found name d =>
      obtain ⟨read, hr, rfl, -⟩ := sound_functionName _ _ _ hn
      have unknown : builtIn? read = none := by
        cases hf : builtIn? read with
        | none => rfl
        | some f =>
          have hr' : c :: k = f.spelling.toList ++ d.rest := by rw [← builtIn?_some hf]; exact hr.1
          cases f with
          | int =>
            obtain ⟨rfl, rfl⟩ : c = 'I' ∧ k = 'N' :: 'T' :: d.rest := by simpa [BuiltIn.spelling] using hr'
            simp [clings] at hk
          | rnd =>
            obtain ⟨rfl, rfl⟩ : c = 'R' ∧ k = 'N' :: 'D' :: d.rest := by simpa [BuiltIn.spelling] using hr'
            simp [clings] at hk
      simp only [unknown]
      exact .inr ⟨hu, _, rfl⟩
    | missing => exact .inl rfl
    | aborted cause => exact .inr ⟨hu, cause, rfl⟩

/-- Where nothing begins that an expression begins with, there is none. -/
theorem skips_expression {t : Text} (h : Stops begins t) : Skips R expression t := by
  have noLetter : Stops Char.isAlpha t := h.mono fun c hc => by simp [begins, hc]
  have noDigit : Stops Char.isDigit t := h.mono fun c hc => by simp [begins, hc]
  have noCapital : Stops Char.isUpper t := noLetter.mono fun c => isAlpha_of_isUpper
  have skipsAtom : Skips R (atomOf expression) t := by
    rw [atomOf_eq advances_expression]
    refine .firstOf fun p hp => ?_
    simp only [atomAlternatives, List.mem_cons, List.not_mem_nil, or_false] at hp
    rcases hp with rfl | rfl | rfl | rfl | rfl | rfl | rfl
    · exact skips_parenthesised (h.head_ne (by decide))
    · exact skips_functionCall noCapital
    · exact skips_negation (h.head_ne (by decide))
    · exact (skips_real noDigit).bind
    · exact (skips_integer noDigit).bind
    · exact Skips.bind (skips_letter noLetter).bind
    · exact (skips_letter noLetter).bind
  have skipsLevel {op : BinaryOp} {symbol : String} {operand : Rule Expression} (h : Skips R operand t) :
      Skips R (level op symbol operand) t := .fix fun _ => h.bind
  rw [expression_eq]
  exact skipsLevel (skipsLevel (skipsLevel (skipsLevel skipsAtom)))

/-! ### Atoms -/

section Alternatives

variable {v : Expression} {w k : Text} {others : List (Rule Expression)}

/-- Where a digit is ahead the first three alternatives for an atom find nothing. -/
theorem takes_number {d : Char} (hd : d.isDigit = true) (h : Takes R (firstOf others) (d :: w) v k) :
    Takes R (firstOf (parenthesised expr :: functionCall expr :: negation atom :: others)) (d :: w) v k := by
  have noParenthesis : d ≠ '(' := by rintro rfl; simp at hd
  have noMinus : d ≠ '-' := by rintro rfl; simp at hd
  refine Skips.orElse_takes (skips_parenthesised (by simpa using noParenthesis)) ?_
  refine Skips.orElse_takes (skips_functionCall (by simpa using isUpper_of_isDigit hd)) ?_
  exact Skips.orElse_takes (skips_negation (by simpa using noMinus)) h

/-- Where a letter is ahead that begins no call, only the last two alternatives can find something. -/
theorem takes_named {c : Char} (hc : c.isAlpha = true) (hcall : Skips R (functionCall expr) (c :: (w ++ k)))
    (h : Takes R (firstOf
        [do let a ← arrayReferenceOf expr; pure a.expression, do let name ← letter; pure (.scalar name)]) (c :: w) v k) :
    Takes R (firstOf (atomAlternatives expr atom)) (c :: w) v k := by
  have noDigit : Stops Char.isDigit (c :: w ++ k) := by simpa using isDigit_of_isAlpha hc
  have noParenthesis : c ≠ '(' := by rintro rfl; simp at hc
  have noMinus : c ≠ '-' := by rintro rfl; simp at hc
  refine Skips.orElse_takes (skips_parenthesised (by simpa using noParenthesis)) ?_
  refine Skips.orElse_takes hcall ?_
  refine Skips.orElse_takes (skips_negation (by simpa using noMinus)) ?_
  refine Skips.orElse_takes (skips_real noDigit).bind ?_
  exact Skips.orElse_takes (skips_integer noDigit).bind h

end Alternatives

theorem takes_atomOf {N : Nat} (hx : TakesExpressions fits N expression) (ha : TakesAtoms fits N (atomOf expression)) :
    TakesAtoms fits (N + 1) (atomOf expression) := by
  intro s e k hs hN hk
  rw [atomOf_eq advances_expression]
  have noPoint : Stops (fun c => c.isDigit || c = '.') k := by
    refine hk.mono fun c (hc : (c.isDigit || c = '.') = true) => ?_
    simp only [clings, hc, Bool.true_or]
  have noDigit : Stops Char.isDigit k := noPoint.mono fun c hc => by simp [hc]
  have noIndex : k.head? ≠ some '(' := hk.head_ne (by decide)
  have toRisk : Long fits → Risk fits k := .inl
  cases hs with
  | @parenthesised a s b _ hsa hs hsb =>
    have taken := takes_parenthesised (k := k) hx hsa hs hsb (by simp at hN; omega)
    exact .orElse (taken.mono toRisk)
  | @call a s b e f hsa hs hsb =>
    have taken := takes_functionCall (k := k) hx f hsa hs hsb (by simp at hN; omega)
    refine Skips.orElse_takes (skips_parenthesised ?_) (.orElse (taken.mono toRisk))
    cases f <;> simp [BuiltIn.spelling]
  | @negation a s e hsa hs =>
    have taken := ha s e k hs (by simp at hN; omega) hk
    refine Skips.orElse_takes (skips_parenthesised (by simp)) ?_
    refine Skips.orElse_takes (skips_functionCall (by simp)) (.orElse ?_)
    have all : ['-'] ++ a ++ s = "-".toList ++ (a ++ s) := by simp
    rw [all]
    exact .bind (takes_literal _) (.bind (takes_spaces hsa (atom_head hs k)) (taken.bind_nil takes_pure))
  | @real w f hw hf =>
    obtain ⟨d, w, rfl⟩ := List.exists_cons_of_ne_nil hw.1
    have taken : Takes (Risk fits k) real (d :: w ++ ['.'] ++ f) (.ofDecimal (d :: w) f) k := by
      simpa using takes_real hw hf noDigit
    exact takes_number (hw.2 d (by simp)) (.orElse (taken.bind_nil takes_pure))
  | integer hw hfit =>
    obtain ⟨d, w, rfl⟩ := List.exists_cons_of_ne_nil hw.1
    have taken : Takes (Risk fits k) integer (d :: w) (decimalValue (d :: w)) k :=
      takes_integer hw noDigit fun hlong => .inl ⟨_, hfit, hlong⟩
    exact takes_number (hw.2 d (by simp))
      (Skips.orElse_takes (skips_real_digits hw noPoint).bind (.orElse (taken.bind_nil takes_pure)))
  | @scalar c hc =>
    refine takes_named hc ((skips_functionCall_letter hk).mono .inr) ?_
    exact Skips.orElse_takes (skips_arrayReferenceOf noIndex).bind (.orElse ((takes_letter hc).bind_nil takes_pure))
  | @element _ r hs =>
    have noExpression : ∀ k, Skips (Long fits) expression (')' :: k) := fun _ => skips_expression (by simp [begins])
    have taken := (takes_arrayReferenceOf (k := k) hx advances_expression noExpression hs (by omega)).mono toRisk
    cases hs with
    | indexed hc =>
      refine takes_named hc ?_ (.orElse (taken.bind_nil takes_pure))
      exact skips_here fun _ => (skips_functionName_single (by simp)).bind

/-- The rule for expressions reads every text that spells one. -/
theorem takes_expression {s k : Text} {e : Expression} (hs : Chain fits s e) (hk : Ends 4 k) :
    Takes (Risk fits k) expression s e k := by
  have inner : ∀ N, TakesAtoms fits N (atomOf expression) → TakesExpressions fits N expression := by
    intro N ha
    rw [expression_eq]
    exact takes_operators (advances_atomOf advances_expression) ha
  have atoms : ∀ N, TakesAtoms fits N (atomOf expression) := by
    intro N
    induction N with
    | zero => exact fun s e k _ hN => absurd hN (Nat.not_lt_zero _)
    | succ N ih => exact takes_atomOf (inner N ih) ih
  exact inner (s.length + 1) (atoms (s.length + 1)) s e k hs (Nat.lt_succ_self _) hk

theorem takes_arrayReference {s k : Text} {r : ArrayReference} (hs : Element fits s r) :
    Takes (Long fits) arrayReference s r k :=
  takes_arrayReferenceOf (N := s.length) (fun _ _ _ hs _ hk => takes_expression hs hk) advances_expression
    (fun _ => skips_expression (by simp [begins])) hs (by omega)

/-! ## (3) Whole texts -/

/-- An integer may have any run of digits of the text. -/
def ShortRuns (t : Text) : Prop := ∀ w, w <:+: t → Digits w → withinLimit w

theorem shortRuns_of_length {t : Text} (h : t.length ≤ digitLimit) : ShortRuns t :=
  fun _ hw _ => Nat.le_trans hw.length_le h

theorem spaces_stops {p : Char → Bool} {a : Text} (ha : Spaces a) (hp : p ' ' = false) : Stops p a := by
  intro c hc
  rw [ha c (List.mem_of_mem_head? hc)]
  exact hp

/-- Spaces end an expression. -/
theorem spaces_ends {n : Nat} {a : Text} (ha : Spaces a) : Ends n a := by
  refine ⟨spaces_stops ha (by decide), fun op _ => ?_⟩
  have all : a.dropWhile isSpace = [] := by
    have := dropWhile_run (k := []) ha.isSpace (stops_nil _)
    rwa [List.append_nil] at this
  simp [all]

theorem not_long_withinLimit : ¬ Long withinLimit := by
  rintro ⟨w, hw, hlong⟩
  exact absurd hw (Nat.not_le_of_lt hlong)

/-- What a text spells is what it is read as, and nothing else is. -/
theorem ofText_iff_spells {t : Text} (ht : ShortRuns t) :
    (∀ e, Expression.ofText t = .ok e ↔ Spells t e) ∧
    (∀ e e', Spells t e → Spells t e' → e = e') ∧
    (∀ e failure, Spells t e → Expression.ofText t ≠ .error failure) := by
  have reads : ∀ e, Spells t e → Expression.ofText t = .ok e := by
    rintro e ⟨s, pad, rfl, hs, hpad⟩
    have short : Chain withinLimit s e := hs.mono fun w hw hd _ => ht w (hw.trans (List.infix_append_left)) hd
    have noCapital : Stops Char.isUpper pad := spaces_stops hpad (by decide)
    refine (takes_expression short (spaces_ends hpad)).parse hpad fun hrisk => ?_
    exact not_long_withinLimit (hrisk.long noCapital)
  have spells : ∀ e, Expression.ofText t = .ok e → Spells t e := by
    intro e he
    obtain ⟨s, pad, rfl, hpad, hs⟩ := sound_expression.parse he
    exact ⟨s, pad, rfl, hs.mono fun _ _ _ _ => trivial, hpad⟩
  refine ⟨fun e => ⟨spells e, reads e⟩, ?_, ?_⟩
  · intro e e' h h'
    have := (reads e h).symm.trans (reads e' h')
    cases this
    rfl
  · intro e failure h he
    have := (reads e h).symm.trans he
    cases this

/-- `1-(A)` is no run of too many digits, and it is read as what it spells. -/
theorem ofText_difference :
    ShortRuns "1-(A) ".toList ∧
      Expression.ofText "1-(A) ".toList = .ok (.binary .subtract (.integer 1) (.scalar 'A')) := by
  have short : ShortRuns "1-(A) ".toList := shortRuns_of_length (by simp [digitLimit])
  have one : Atom (fun _ => True) ['1'] (.integer 1) := .integer (by simp [Digits]) trivial
  have a : Chain (fun _ => True) ['A'] (.scalar 'A') := by
    simpa [chainTree_nil] using Chain.chain (.scalar (by decide)) .none
  have inner : Atom (fun _ => True) ['(', 'A', ')'] (.scalar 'A') := by
    simpa using Atom.parenthesised spaces_nil a spaces_nil
  have links : Links (fun _ => True) ['-', '(', 'A', ')'] [(.subtract, .scalar 'A')] := by
    simpa [BinaryOp.sign] using Links.more .subtract spaces_nil spaces_nil inner .none
  have tree : chainTree (.integer 1) [(.subtract, .scalar 'A')] = .binary .subtract (.integer 1) (.scalar 'A') := by
    have split : chainTree (.integer 1) ([] ++ (.subtract, .scalar 'A') :: []) = _ :=
      chainTree_append (by simp) (by simp)
    simpa [chainTree_nil] using split
  have spells : Spells "1-(A) ".toList (.binary .subtract (.integer 1) (.scalar 'A')) := by
    have all := Chain.chain one links
    rw [tree] at all
    exact ⟨_, [' '], rfl, all, spaces_one⟩
  exact ⟨short, ((ofText_iff_spells short).1 _).mpr spells⟩

end Grammar

end LineBasic
