import LineBasic.Ascending

/-
  LineBasic.Proofs.Ascending — an ascending list is told by its members.

  `ascending l` has the members of `l` (`mem_ascending`), each before the larger ones (`pairwise_ascending`), and a
  strictly ascending list with given members is the only one (`eq_of_ascending`).
-/

namespace LineBasic

variable {α : Type} [LT α] [LE α] [Std.IsLinearOrder α] [Std.LawfulOrderLT α]

theorem eq_of_ascending {l l' : List α} (hl : l.Pairwise (· < ·)) (hl' : l'.Pairwise (· < ·))
    (h : ∀ a, a ∈ l ↔ a ∈ l') : l = l' := by
  have nodup : ∀ m : List α, m.Pairwise (· < ·) → m.Nodup := by
    intro m hm
    refine List.nodup_iff_pairwise_ne.mpr (hm.imp ?_)
    rintro a _ ha rfl
    exact Std.lt_irrefl ha
  have rearranged : l.Perm l' := (List.perm_ext_iff_of_nodup (nodup l hl) (nodup l' hl')).mpr h
  refine rearranged.eq_of_pairwise (fun a b _ _ hab hba => ?_) hl hl'
  exact absurd hba (Std.not_lt.mpr (Std.le_of_lt hab))

variable [DecidableLT α]

theorem mem_insertAscending {a b : α} {l : List α} : b ∈ insertAscending a l ↔ b = a ∨ b ∈ l := by
  induction l with
  | nil => simp [insertAscending]
  | cons c l ih =>
    unfold insertAscending
    split
    · simp
    · split
      · simp [ih, or_left_comm]
      · rename_i hac hca
        have same : a = c := Std.le_antisymm (Std.not_lt.mp hca) (Std.not_lt.mp hac)
        simp [same]

theorem pairwise_insertAscending {a : α} {l : List α} (h : l.Pairwise (· < ·)) :
    (insertAscending a l).Pairwise (· < ·) := by
  induction l with
  | nil => simp [insertAscending]
  | cons c l ih =>
    obtain ⟨hc, hl⟩ := List.pairwise_cons.mp h
    unfold insertAscending
    split
    · rename_i hac
      refine List.pairwise_cons.mpr ⟨fun b hb => ?_, h⟩
      rcases List.mem_cons.mp hb with rfl | hb
      · exact hac
      · exact Std.lt_trans hac (hc b hb)
    · split
      · rename_i hca
        refine List.pairwise_cons.mpr ⟨fun b hb => ?_, ih hl⟩
        rcases mem_insertAscending.mp hb with rfl | hb
        · exact hca
        · exact hc b hb
      · exact h

theorem mem_ascending {b : α} {l : List α} : b ∈ ascending l ↔ b ∈ l := by
  induction l with
  | nil => rfl
  | cons a l ih =>
    show b ∈ insertAscending a (ascending l) ↔ _
    rw [mem_insertAscending, ih, List.mem_cons]

theorem pairwise_ascending (l : List α) : (ascending l).Pairwise (· < ·) := by
  induction l with
  | nil => exact .nil
  | cons a l ih => exact pairwise_insertAscending ih

/-- Order and repeats of a list do not matter to its ascending list. -/
theorem ascending_congr {l l' : List α} (h : ∀ a, a ∈ l ↔ a ∈ l') : ascending l = ascending l' :=
  eq_of_ascending (pairwise_ascending l) (pairwise_ascending l') fun a => by rw [mem_ascending, mem_ascending, h a]

end LineBasic
