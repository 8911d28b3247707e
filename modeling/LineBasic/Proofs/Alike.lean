import LineBasic.Grammar.Reading
import LineBasic.Proofs.Reading

/-
  LineBasic.Proofs.Alike — rules that cannot be told apart from outside.

  Two rules are alike if they reply with the same outcome and miss the same things everywhere (`Alike`). How often they
  miss something, and in which order, does not matter: a frontier keeps the farthest misses only, as a set (`SameSet`,
  `Alike.recordAll`). So a rule may read the beginning of an alternative again that it has read before, and be alike to
  the rule that reads it once (`alike_shared`).
-/

namespace LineBasic

variable {α β : Type}

/-! ## What a frontier keeps of the misses -/

/-- The lists have the same members. -/
def SameSet (l l' : List α) : Prop := ∀ a, a ∈ l ↔ a ∈ l'

theorem SameSet.refl (l : List α) : SameSet l l := fun _ => Iff.rfl

theorem SameSet.symm {l l' : List α} (h : SameSet l l') : SameSet l' l := fun a => (h a).symm

theorem SameSet.append {l l' m m' : List α} (h : SameSet l l') (h' : SameSet m m') : SameSet (l ++ m) (l' ++ m') := by
  intro a
  rw [List.mem_append, List.mem_append, h a, h' a]

/-- The two frontiers cannot be told apart. -/
def Frontier.Same (f g : Frontier) : Prop := f.farthest = g.farthest ∧ SameSet f.wanted g.wanted

/-- The farthest offset is that of the frontier or of a miss, whichever is the farthest. -/
theorem Frontier.farthest_recordAll (f : Frontier) (misses : List Miss) :
    f.farthest ≤ (f.recordAll misses).farthest ∧ (∀ m ∈ misses, m.offset ≤ (f.recordAll misses).farthest) ∧
      ((f.recordAll misses).farthest = f.farthest ∨ ∃ m ∈ misses, m.offset = (f.recordAll misses).farthest) := by
  induction misses generalizing f with
  | nil => exact ⟨Nat.le_refl _, by simp, .inl rfl⟩
  | cons m misses ih =>
    obtain ⟨h₁, h₂, h₃⟩ := ih (f.record m)
    have step : f.farthest ≤ (f.record m).farthest ∧ m.offset ≤ (f.record m).farthest ∧
        ((f.record m).farthest = f.farthest ∨ (f.record m).farthest = m.offset) := by
      unfold Frontier.record
      split
      · simp; omega
      · split <;> simp <;> omega
    show f.farthest ≤ ((f.record m).recordAll misses).farthest ∧ _
    refine ⟨by omega, ?_, ?_⟩
    · intro n hn
      rcases List.mem_cons.mp hn with rfl | hn
      · exact Nat.le_trans step.2.1 h₁
      · exact h₂ n hn
    · rcases h₃ with h₃ | ⟨n, hn, h₃⟩
      · rcases step.2.2 with h | h
        · exact .inl (h₃.trans h)
        · exact .inr ⟨m, List.mem_cons_self, (h₃.trans h).symm⟩
      · exact .inr ⟨n, List.mem_cons_of_mem _ hn, h₃⟩

/-- What is wanted at the farthest offset is what was wanted there before and what is missed there. -/
theorem Frontier.mem_wanted_recordAll (f : Frontier) (misses : List Miss) (w : Wanted) :
    w ∈ (f.recordAll misses).wanted ↔
      (f.recordAll misses).farthest = f.farthest ∧ w ∈ f.wanted ∨ ⟨(f.recordAll misses).farthest, w⟩ ∈ misses := by
  induction misses generalizing f with
  | nil => simp [Frontier.recordAll]
  | cons m misses ih =>
    have hle := ((f.record m).farthest_recordAll misses).1
    have first : f.recordAll (m :: misses) = (f.record m).recordAll misses := rfl
    rw [first, ih]
    generalize ((f.record m).recordAll misses).farthest = far at hle
    have hm : (⟨far, w⟩ : Miss) = m ↔ far = m.offset ∧ w = m.wanted := by cases m; simp
    rw [List.mem_cons, hm]
    unfold Frontier.record at hle ⊢
    split
    · rename_i h₁
      rw [if_pos h₁] at hle
      have hne : far ≠ f.farthest := by simp at hle; omega
      simp [hne]
    · rename_i h₁
      rw [if_neg h₁] at hle
      split
      · rename_i h₂
        rw [← h₂]
        simp [and_or_left, or_assoc, or_left_comm]
      · rename_i h₂
        rw [if_neg h₂] at hle
        have hne : far ≠ m.offset := by omega
        simp [hne]

theorem Frontier.Same.recordAll (f : Frontier) {misses misses' : List Miss} (h : SameSet misses misses') :
    (f.recordAll misses).Same (f.recordAll misses') := by
  obtain ⟨h₁, h₂, h₃⟩ := f.farthest_recordAll misses
  obtain ⟨h₁', h₂', h₃'⟩ := f.farthest_recordAll misses'
  have far : (f.recordAll misses).farthest = (f.recordAll misses').farthest := by
    have le : (f.recordAll misses).farthest ≤ (f.recordAll misses').farthest := by
      rcases h₃ with h₃ | ⟨m, hm, h₃⟩
      · omega
      · exact h₃ ▸ h₂' m ((h m).mp hm)
    have ge : (f.recordAll misses').farthest ≤ (f.recordAll misses).farthest := by
      rcases h₃' with h₃' | ⟨m, hm, h₃'⟩
      · omega
      · exact h₃' ▸ h₂ m ((h m).mpr hm)
    omega
  refine ⟨far, fun w => ?_⟩
  rw [f.mem_wanted_recordAll, f.mem_wanted_recordAll, ← far, h]

/-! ## Rules -/

/-- The same outcome and the same misses. -/
def Reply.Alike (r s : Reply α) : Prop := r.outcome = s.outcome ∧ SameSet r.misses s.misses

/-- To read again what was read before repeats its result and misses nothing new. -/
theorem Reply.alike_shared (r : Reply α) (f g : α → Cursor → Reply β) :
    (r.andThen fun v c => (f v c).orTry fun _ => g v c).Alike ((r.andThen f).orTry fun _ => r.andThen g) := by
  obtain ⟨outcome, misses⟩ := r
  cases outcome with
  | found v c =>
    show (((f v c).orTry fun _ => g v c).after misses).Alike
      (((f v c).after misses).orTry fun _ => (g v c).after misses)
    obtain ⟨outcome, misses'⟩ := f v c
    cases outcome with
    | found w d => exact ⟨rfl, .refl _⟩
    | missing =>
      refine ⟨rfl, fun m => ?_⟩
      simp only [Reply.orTry, Reply.after, List.mem_append]
      constructor
      · rintro (h | h | h)
        · exact .inl (.inl h)
        · exact .inl (.inr h)
        · exact .inr (.inr h)
      · rintro ((h | h) | h | h)
        · exact .inl h
        · exact .inr (.inl h)
        · exact .inl h
        · exact .inr (.inr h)
    | aborted cause => exact ⟨rfl, .refl _⟩
  | missing => exact ⟨rfl, fun m => by simp [Reply.andThen, Reply.orTry, Reply.after]⟩
  | aborted cause => exact ⟨rfl, .refl _⟩

namespace Rule

def Alike (p q : Rule α) : Prop := ∀ c, (p.run c).Alike (q.run c)

variable {p q r p' q' : Rule α}

theorem Alike.refl (p : Rule α) : Alike p p := fun _ => ⟨rfl, SameSet.refl _⟩

theorem Alike.symm (h : Alike p q) : Alike q p := fun c => ⟨(h c).1.symm, (h c).2.symm⟩

theorem Alike.trans (h : Alike p q) (h' : Alike q r) : Alike p r :=
  fun c => ⟨(h c).1.trans (h' c).1, fun m => ((h c).2 m).trans ((h' c).2 m)⟩

theorem Alike.bind {f g : α → Rule β} (h : Alike p q) (hf : ∀ v, Alike (f v) (g v)) : Alike (p >>= f) (q >>= g) := by
  intro c
  obtain ⟨ho, hm⟩ := h c
  rw [run_bind, run_bind]
  unfold Reply.andThen
  rw [← ho]
  cases (p.run c).outcome with
  | found v d => exact ⟨(hf v d).1, hm.append (hf v d).2⟩
  | missing => exact ⟨rfl, hm⟩
  | aborted cause => exact ⟨rfl, hm⟩

theorem Alike.orElse (h : Alike p q) (h' : Alike p' q') : Alike (p <|> p') (q <|> q') := by
  intro c
  obtain ⟨ho, hm⟩ := h c
  rw [run_orElse, run_orElse]
  unfold Reply.orTry
  rw [← ho]
  cases hp : (p.run c).outcome with
  | found v d => exact ⟨ho, hm⟩
  | missing => exact ⟨(h' c).1, hm.append (h' c).2⟩
  | aborted cause => exact ⟨ho, hm⟩

theorem Alike.fix {body body' : Rule α → Rule α} (h : ∀ p q, Alike p q → Alike (body p) (body' q)) :
    Alike (fix body) (fix body') := by
  have hr : ∀ fuel, Alike ⟨rounds body fuel⟩ ⟨rounds body' fuel⟩ := by
    intro fuel
    induction fuel with
    | nil => exact h fail fail (.refl fail)
    | cons _ fuel ih => exact h ⟨rounds body fuel⟩ ⟨rounds body' fuel⟩ ih
  exact fun c => hr c.rest c

/-- Going on without reading changes nothing. -/
theorem alike_bind_pure (p : Rule α) : Alike (p >>= pure) p := by
  intro c
  rw [run_bind]
  unfold Reply.andThen
  cases h : (p.run c).outcome with
  | found v d => exact ⟨h.symm, fun m => by simp [Reply.after]⟩
  | missing => exact ⟨h.symm, .refl _⟩
  | aborted cause => exact ⟨h.symm, .refl _⟩

/-- Two alternatives that begin with `p` may share it. -/
theorem alike_shared (p : Rule α) (f g : α → Rule β) : Alike (p >>= fun v => f v <|> g v) ((p >>= f) <|> (p >>= g)) :=
  fun c => (p.run c).alike_shared (fun v => (f v).run) (fun v => (g v).run)

/-- Two recursive rules are alike if their bodies are, and if one body is guarded, the other rule is its own body too. -/
theorem alike_fix {body body' : Rule α → Rule α} (hg : Guarded body) (h : ∀ p q, Alike p q → Alike (body p) (body' q)) :
    Alike (fix body) (fix body') ∧ Alike (fix body') (body' (fix body')) := by
  have hf : Alike (fix body) (fix body') := .fix h
  have step := h _ _ hf
  rw [← fix_eq hg] at step
  exact ⟨hf, hf.symm.trans step⟩

theorem alike_shared_pure (p : Rule α) (f : α → Rule α) : Alike (p >>= fun v => f v <|> pure v) ((p >>= f) <|> p) :=
  (alike_shared p f pure).trans (.orElse (.refl _) (alike_bind_pure p))

theorem alike_shared_twice (p : Rule α) (f g : α → Rule α) :
    Alike (p >>= fun v => f v <|> g v <|> pure v) ((p >>= f) <|> (p >>= g) <|> p) :=
  (alike_shared p f fun v => g v <|> pure v).trans (.orElse (.refl _) (alike_shared_pure p g))

theorem Alike.behind {f g : α → Rule β} (hf : ∀ v, Alike (f v) (g v)) : Alike (p >>= f) (p >>= g) := .bind (.refl p) hf

theorem Alike.separated {separator : String} (h : Alike p q) : Alike (separated separator p) (separated separator q) := by
  refine .fix fun items items' hi => h.bind fun first => .behind fun b => ?_
  split
  · exact hi.bind fun _ => .refl _
  · exact .refl _

end Rule

end LineBasic
