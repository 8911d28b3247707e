import LineBasic.Number.Binary64

/-
  LineBasic.Proofs.Decimal — numbers written in decimal and read again.

  (1) A natural in decimal digits has its own value again, and digits have a value below the power of ten of their
      number.
  (2) A binary64 number is a fraction with 1074 decimals: as many units of 10^-1074 as it has units of 2^-1074, times
      5^1074. Read again, that fraction is the number itself. For infinity it is the decimal of the number that would
      come next if the range went on.
-/

namespace LineBasic

/-! ## (1) Naturals -/

theorem decimalValue_concat (w : Text) (c : Char) : decimalValue (w ++ [c]) = appendDigit (decimalValue w) c := by
  simp [decimalValue, List.foldl_append]

theorem appendDigit_digitChar {m d : Nat} (h : d < 10) : appendDigit m d.digitChar = 10 * m + d := by
  have hd : d.digitChar.toNat - '0'.toNat = d := Nat.toNat_digitChar_sub_48_of_lt_ten h
  rw [appendDigit, hd]

theorem decimalValue_toDigits (n : Nat) : decimalValue (Nat.toDigits 10 n) = n := by
  induction n using Nat.strongRecOn with
  | ind n ih =>
    rw [Nat.toDigits_eq_if (by decide)]
    split
    · rename_i h
      have := appendDigit_digitChar (m := 0) h
      simpa [decimalValue] using this
    · rename_i h
      rw [decimalValue_concat, ih (n / 10) (by omega), appendDigit_digitChar (Nat.mod_lt n (by decide))]
      omega

theorem length_toDigits {m k : Nat} (hk : 0 < k) (h : m < Nat.pow 10 k) : (Nat.toDigits 10 m).length ≤ k :=
  (Nat.length_toDigits_le_iff (by decide) hk).mpr h

theorem decimalValue_lt {w : Text} (h : ∀ c ∈ w, c.isDigit = true) : decimalValue w < Nat.pow 10 w.length := by
  suffices ∀ m, w.foldl appendDigit m < (m + 1) * Nat.pow 10 w.length from by simpa [decimalValue] using this 0
  induction w with
  | nil => simp
  | cons c w ih =>
    intro m
    have hc : c.toNat - '0'.toNat ≤ 9 := by
      have := h c (by simp)
      simp [Char.isDigit, UInt32.le_iff_toNat_le] at this
      simp
      omega
    have step := ih (fun d hd => h d (by simp [hd])) (appendDigit m c)
    have bound : appendDigit m c + 1 ≤ (m + 1) * 10 := by
      unfold appendDigit
      omega
    calc (c :: w).foldl appendDigit m < (appendDigit m c + 1) * Nat.pow 10 w.length := step
      _ ≤ (m + 1) * 10 * Nat.pow 10 w.length := Nat.mul_le_mul_right _ bound
      _ = (m + 1) * Nat.pow 10 (c :: w).length := by
        simp [Nat.pow_succ, Nat.mul_assoc, Nat.mul_comm]

theorem digitCount_le_iff {n : Int} {k : Nat} (hk : 0 < k) : digitCount n ≤ k ↔ n.natAbs < Nat.pow 10 k :=
  Nat.length_toDigits_le_iff (by decide) hk

theorem lt_digitCount_pow {k : Nat} (hk : 0 < k) : k < digitCount (Nat.pow 10 k) :=
  Nat.lt_of_not_le fun fits => absurd ((digitCount_le_iff hk).mp fits) (Nat.lt_irrefl _)

/-- A number that is read has at most as many digits as were read. -/
theorem digitCount_decimalValue {w : Text} (hne : w ≠ []) (h : ∀ c ∈ w, c.isDigit = true) :
    digitCount (decimalValue w) ≤ w.length :=
  (digitCount_le_iff (List.length_pos_iff.mpr hne)).mpr (decimalValue_lt h)

/-- The last `k` decimal digits of a natural. -/
def lastDigits : Nat → Nat → Text
  | 0, _ => []
  | k + 1, n => lastDigits k (n / 10) ++ [(n % 10).digitChar]

theorem length_lastDigits (k n : Nat) : (lastDigits k n).length = k := by
  induction k generalizing n with
  | zero => rfl
  | succ k ih => simp [lastDigits, ih]

theorem isDigit_lastDigits (k n : Nat) : ∀ c ∈ lastDigits k n, c.isDigit = true := by
  induction k generalizing n with
  | zero => simp [lastDigits]
  | succ k ih =>
    intro c hc
    rcases List.mem_append.mp hc with hc | hc
    · exact ih (n / 10) c hc
    · rw [List.mem_singleton.mp hc, Nat.isDigit_digitChar]
      exact decide_eq_true (Nat.mod_lt n (by decide))

theorem decimalValue_lastDigits (w : Text) (k n : Nat) :
    decimalValue (w ++ lastDigits k n) = decimalValue w * Nat.pow 10 k + n % Nat.pow 10 k := by
  induction k generalizing n with
  | zero => simp [lastDigits, Nat.mod_one]
  | succ k ih =>
    have split : n % Nat.pow 10 (k + 1) = n % 10 + 10 * (n / 10 % Nat.pow 10 k) := by
      have : Nat.pow 10 (k + 1) = 10 * Nat.pow 10 k := Nat.mul_comm _ _
      rw [this, Nat.mod_mul]
    have power : decimalValue w * Nat.pow 10 (k + 1) = 10 * (decimalValue w * Nat.pow 10 k) := by
      simp [Nat.pow_succ, Nat.mul_comm, Nat.mul_left_comm]
    rw [lastDigits, ← List.append_assoc, decimalValue_concat, ih, appendDigit_digitChar (Nat.mod_lt n (by decide)), split,
      power]
    omega

/-- A natural over a power of ten, written with a point, has the same digits. -/
theorem decimalValue_fraction (n k : Nat) :
    decimalValue (Nat.toDigits 10 (n / Nat.pow 10 k) ++ lastDigits k n) = n := by
  rw [decimalValue_lastDigits, decimalValue_toDigits, Nat.mul_comm]
  exact Nat.div_add_mod n _

/-! ## (2) Binary64 numbers -/

namespace Binary64

theorem roundHalfEven_exact {m d : Nat} (hd : 0 < d) : roundHalfEven (m * d) d = m := by
  have hdiv : m * d / d = m := Nat.mul_div_cancel m hd
  have hmod : m * d % d = 0 := Nat.mul_mod_left m d
  simp only [roundHalfEven, hdiv, hmod]
  rw [if_pos (by omega)]

theorem ofBits_bits (x : Binary64) : ofBits x.bits = x := dif_pos x.bits_le

/-- A number is its own bit pattern, or it has 53 significant bits, the first of them 1. -/
theorem units_cases (x : Binary64) :
    (x.bits < 1 <<< 52 ∧ x.units = x.bits) ∨
      ∃ step f, f < 1 <<< 52 ∧ x.bits = (step <<< 52) + ((1 <<< 52) + f) ∧ x.units = ((1 <<< 52) + f) <<< step := by
  have size : (1 <<< 52 : Nat) = 4503599627370496 := rfl
  have field : x.bits >>> 52 = x.bits / 4503599627370496 := Nat.shiftRight_eq_div_pow _ _
  by_cases h : x.bits >>> 52 = 0
  · refine .inl ⟨by omega, ?_⟩
    unfold units
    rw [if_pos h]
    exact Nat.mod_eq_of_lt (by omega)
  · refine .inr ⟨x.bits >>> 52 - 1, x.bits % (1 <<< 52), Nat.mod_lt _ (by decide), ?_, ?_⟩
    · have shifted : (x.bits >>> 52 - 1) <<< 52 = (x.bits >>> 52 - 1) * 4503599627370496 := Nat.shiftLeft_eq _ _
      rw [shifted, size]
      omega
    · unfold units
      rw [if_neg h]

/-- A number that is a fraction exactly is the nearest to it. -/
theorem nearest_exact {x : Binary64} {n d : Nat} (hd : 0 < d) (h : n <<< 1074 = x.units * d) : nearest n d = x := by
  have size : (1 <<< 52 : Nat) = 4503599627370496 := rfl
  have quotient : x.units * d / d = x.units := Nat.mul_div_cancel _ hd
  unfold nearest
  simp only [h, quotient]
  rcases x.units_cases with ⟨hlt, hu⟩ | ⟨step, f, hf, hbits, hu⟩
  · have small : x.units.log2 - 52 = 0 := by
      by_cases hz : x.units = 0
      · rw [hz, Nat.log2_zero]
      · have : x.units.log2 < 52 := (Nat.log2_lt hz).mpr (by omega)
        omega
    rw [small]
    simp only [Nat.shiftLeft_zero, Nat.zero_shiftLeft, Nat.zero_add]
    rw [roundHalfEven_exact hd, hu, ofBits_bits]
  · have hpow : x.units = ((1 <<< 52) + f) * 2 ^ step := by rw [hu, Nat.shiftLeft_eq]
    have log : x.units.log2 - 52 = step := by
      have hne : x.units ≠ 0 := by
        rw [hpow]
        exact Nat.mul_ne_zero (by omega) (Nat.ne_of_gt (Nat.two_pow_pos step))
      have low : 2 ^ (52 + step) ≤ x.units := by
        rw [hpow, Nat.pow_add]
        exact Nat.mul_le_mul_right _ (by omega)
      have high : x.units < 2 ^ (52 + step + 1) := by
        rw [hpow, Nat.add_right_comm, Nat.pow_add]
        exact Nat.mul_lt_mul_of_pos_right (by omega) (Nat.two_pow_pos step)
      have : x.units.log2 = 52 + step := (Nat.log2_eq_iff hne).mpr ⟨low, high⟩
      omega
    rw [log, hpow, Nat.shiftLeft_eq d, Nat.mul_assoc, Nat.mul_comm (2 ^ step) d,
      roundHalfEven_exact (Nat.mul_pos hd (Nat.two_pow_pos step)), ← hbits, ofBits_bits]

/-! ### The decimals of a number -/

/-- How many decimals are enough for every number. -/
def decimals : Nat := 1074

/-- How many units of 10^-1074 the number has. -/
def decimalUnits (x : Binary64) : Nat := x.units * Nat.pow 5 decimals

/-- The digits of the number before its point. -/
def wholeDigits (x : Binary64) : Text := Nat.toDigits 10 (x.decimalUnits / Nat.pow 10 decimals)

/-- The digits of the number behind its point. -/
def fractionDigits (x : Binary64) : Text := lastDigits decimals x.decimalUnits

theorem ofDecimal_digits (x : Binary64) : ofDecimal x.wholeDigits x.fractionDigits = x := by
  have units (k n : Nat) : (n * Nat.pow 5 k) <<< k = n * Nat.pow 10 k := by
    rw [Nat.shiftLeft_eq, Nat.mul_assoc]
    exact congrArg (n * ·) (Nat.mul_pow 5 2 k).symm
  have positive (k : Nat) : 0 < Nat.pow 10 k := Nat.pow_pos (by decide)
  unfold ofDecimal
  rw [wholeDigits, fractionDigits, decimalValue_fraction, length_lastDigits]
  exact nearest_exact (positive decimals) (units decimals x.units)

end Binary64

end LineBasic
