import LineBasic.Rule.Basic

/-
  LineBasic.Rule.Fix — recursive rules.

  All recursion of the grammar is in `fix`. It gives a rule one round for every character ahead, so it always ends. For
  a body that looks at its inner rule only where fewer characters are ahead (`Guarded`) the rounds are never used up:
  `fix body` is then `body` with `fix body` itself as the inner rule (`run_fix`). That is asked of inner rules that
  only ever read on from their cursor (`Advances`), as a body may look at its inner rule once more behind what that rule
  has read.
-/

namespace LineBasic.Rule

variable {α : Type}

/-- Rounds of `body`, each with the next one as its inner rule: one for every character of `fuel`, and a last one
    whose inner rule finds nothing. -/
def rounds (body : Rule α → Rule α) : Text → Cursor → Reply α
  | [], c => (body fail).run c
  | _ :: fuel, c => (body ⟨rounds body fuel⟩).run c

/-- The rule that is `body` with the rule itself as its inner rule. -/
def fix (body : Rule α → Rule α) : Rule α := ⟨fun c => rounds body c.rest c⟩

/-- The rules reply alike wherever fewer than `n` characters are ahead. -/
def Agree (n : Nat) (p q : Rule α) : Prop := ∀ c, c.rest.length < n → p.run c = q.run c

/-- What the rule finds, it finds by reading on from its cursor. -/
def Advances (p : Rule α) : Prop := ∀ c v d, (p.run c).outcome = .found v d → ∃ read, c.Reads read d

/-- The body reads something before it looks at its inner rule. -/
structure Guarded (body : Rule α → Rule α) : Prop where
  advances : ∀ p, Advances p → Advances (body p)
  agree : ∀ n p q, Advances p → Advances q → Agree n p q → Agree (n + 1) (body p) (body q)

theorem advances_fail : Advances (fail : Rule α) := fun _ _ _ h => nomatch h

theorem advances_rounds {body : Rule α → Rule α} (h : ∀ p, Advances p → Advances (body p)) (fuel : Text) :
    Advances ⟨rounds body fuel⟩ := by
  induction fuel with
  | nil => exact h fail advances_fail
  | cons _ fuel ih => exact h ⟨rounds body fuel⟩ ih

theorem advances_fix {body : Rule α → Rule α} (h : ∀ p, Advances p → Advances (body p)) : Advances (fix body) :=
  fun c => advances_rounds h c.rest c

/-- Any two numbers of rounds that are enough for the characters ahead give the same reply. -/
theorem rounds_eq {body : Rule α → Rule α} (h : Guarded body) (n : Nat) (f g : Text) (c : Cursor)
    (hf : n ≤ f.length) (hg : n ≤ g.length) (hc : c.rest.length ≤ n) : rounds body f c = rounds body g c := by
  induction n generalizing f g c with
  | zero =>
    have last : ∀ fuel, rounds body fuel c = (body fail).run c := by
      intro fuel
      cases fuel with
      | nil => rfl
      | cons _ fuel =>
        exact h.agree 0 ⟨rounds body fuel⟩ fail (advances_rounds h.advances fuel) advances_fail
          (fun d hd => absurd hd (by omega)) c (by omega)
    rw [last f, last g]
  | succ n ih =>
    match f, g with
    | _ :: f, _ :: g =>
      exact h.agree (n + 1) ⟨rounds body f⟩ ⟨rounds body g⟩ (advances_rounds h.advances f) (advances_rounds h.advances g)
        (fun d hd => ih f g d (by simpa using hf) (by simpa using hg) (by omega)) c (by omega)
    | [], _ => simp at hf
    | _ :: _, [] => simp at hg

theorem run_fix {body : Rule α → Rule α} (h : Guarded body) (c : Cursor) :
    (fix body).run c = (body (fix body)).run c := by
  have hs := advances_fix h.advances
  show rounds body c.rest c = _
  rcases hc : c.rest with _ | ⟨a, t⟩
  · exact h.agree 0 fail (fix body) advances_fail hs (fun d hd => absurd hd (by omega)) c (by simp [hc])
  · refine h.agree (t.length + 1) ⟨rounds body t⟩ (fix body) (advances_rounds h.advances t) hs (fun d hd => ?_) c
      (by simp [hc])
    exact rounds_eq h d.rest.length t d.rest d (by omega) (Nat.le_refl _) (Nat.le_refl _)

theorem fix_eq {body : Rule α → Rule α} (h : Guarded body) : fix body = body (fix body) :=
  congrArg mk (funext (run_fix h))

end LineBasic.Rule
