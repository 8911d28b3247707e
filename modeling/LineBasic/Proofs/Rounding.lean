import Mathlib.Algebra.Order.Field.Power
import Mathlib.Data.List.Induction
import Mathlib.Tactic.Linarith
import Mathlib.Tactic.Positivity
import Mathlib.Tactic.Ring
import LineBasic.Proofs.Decimal
import LineBasic.Proofs.Lexemes

/-
  LineBasic.Proofs.Rounding — a decimal fraction is read as the binary64 number nearest to it.

  (1) The bits of a number are a significand and an exponent, and so many units of 2^-1074 (`value_eq`). The finite
      numbers of either sign are the multiples of a power of two by less than 53 bits (`Representable`).
  (2) Rounding to a natural goes to the nearest one, and to the even one if two are equally near.
  (3) The nearest number to a rational is found by rounding it in steps of a power of two, so large that the steps are
      counted with 53 bits (`Steps`). A number in smaller steps is not above 2^52 of these steps and so no nearer
      (`Steps.multiple`). What is counted is the significand, a carry is the next power of two (`Steps.units_eq`), and
      infinity is reached from 2^1024 - 2^970 on (`Steps.overflow`).
  (4) Of two rationals the larger one is not rounded to the smaller number (`Rounds.le`), and one rational is rounded to
      one number, in whatever terms it is given (`nearest_congr`).
  (5) So the digits of a decimal fraction yield the correct rounding of its value, however many there are.
-/

namespace LineBasic

/-- The rational with the digits `whole` before its point and `fraction` behind it. -/
def decimalFraction (whole fraction : Text) : ℚ := decimalValue whole + decimalValue fraction / 10 ^ fraction.length

namespace Binary64

/-! ## (1) What the bits mean -/

/-- The significand in units of its last bit. The leading bit is not stored, and it is 0 only if the exponent field is. -/
def significand (x : Binary64) : ℕ := if x.bits / 2 ^ 52 = 0 then x.bits % 2 ^ 52 else 2 ^ 52 + x.bits % 2 ^ 52

/-- The exponent of the last bit of the significand. -/
def exponent (x : Binary64) : ℤ := if x.bits / 2 ^ 52 = 0 then -1074 else (x.bits / 2 ^ 52 : ℕ) - 1075

/-- The value of a finite number. -/
def value (x : Binary64) : ℚ := x.significand * 2 ^ x.exponent

/-- The value of a finite binary64 number, of either sign. -/
def Representable (v : ℚ) : Prop := ∃ m e : ℤ, |m| < 2 ^ 53 ∧ -1074 ≤ e ∧ e ≤ 971 ∧ v = m * 2 ^ e

/-- Infinity is the largest number, and finite numbers are ordered by value. -/
instance : LE Binary64 := ⟨fun x y => y = infinity ∨ x ≠ infinity ∧ x.value ≤ y.value⟩

/-- The number is the correct rounding of `r`: infinity from 2^1024 - 2^970 on, otherwise no finite number is nearer, and
    if another is as near, the significand is even. -/
structure Rounds (r : ℚ) (x : Binary64) : Prop where
  overflow : x = infinity ↔ 2 ^ 1024 - 2 ^ 970 ≤ r
  nearest : x ≠ infinity → ∀ v, Representable v → |x.value - r| ≤ |v - r|
  even : x ≠ infinity → ∀ v, Representable v → v ≠ x.value → |v - r| = |x.value - r| → Even x.significand

/-- The bits count the steps of 2^`step` units that make up the number. -/
theorem exists_step (x : Binary64) : ∃ step : ℕ, x.bits = step * 2 ^ 52 + x.significand ∧ x.significand < 2 ^ 53 ∧
    (step = 0 ∨ 2 ^ 52 ≤ x.significand) ∧ x.exponent = step - 1074 ∧ x.units = x.significand * 2 ^ step := by
  have size : (1 <<< 52 : ℕ) = 2 ^ 52 := rfl
  unfold significand exponent
  rcases x.units_cases with ⟨hlt, hu⟩ | ⟨step, f, hf, hbits, hu⟩
  · have field : x.bits / 2 ^ 52 = 0 := by omega
    rw [if_pos field, if_pos field]
    refine ⟨0, by omega, by omega, .inl rfl, by simp, ?_⟩
    rw [hu, pow_zero, mul_one, Nat.mod_eq_of_lt (by omega)]
  · rw [Nat.shiftLeft_eq, size] at hbits hu
    have field : x.bits / 2 ^ 52 = step + 1 := by omega
    have fraction : x.bits % 2 ^ 52 = f := by omega
    rw [field, fraction, if_neg (Nat.succ_ne_zero step), if_neg (Nat.succ_ne_zero step)]
    exact ⟨step, hbits, by omega, .inr (by omega), by push_cast; ring, hu⟩

theorem finite_iff {x : Binary64} : x ≠ infinity ↔ x.bits < infinityBits := by
  have bound := x.bits_le
  constructor
  · intro h
    refine lt_of_le_of_ne bound fun he => h ?_
    cases x
    cases he
    rfl
  · rintro h rfl
    exact absurd h (lt_irrefl _)

theorem value_eq (x : Binary64) : x.value = x.units / 2 ^ 1074 := by
  obtain ⟨step, -, -, -, he, hu⟩ := x.exists_step
  rw [value, he, hu, zpow_sub₀ two_ne_zero, zpow_natCast, zpow_ofNat, Nat.cast_mul, Nat.cast_pow, Nat.cast_ofNat,
    mul_div_assoc]

theorem representable_value {x : Binary64} (h : x ≠ infinity) : Representable x.value := by
  obtain ⟨step, hb, hs, full, he, -⟩ := x.exists_step
  have finite := finite_iff.mp h
  have top : infinityBits = 2047 * 2 ^ 52 := rfl
  refine ⟨x.significand, x.exponent, ?_, by omega, by omega, by simp [value]⟩
  rw [abs_of_nonneg (Int.natCast_nonneg _)]
  exact_mod_cast hs

/-- A representable value is a whole number of units. -/
theorem Representable.units {v : ℚ} (h : Representable v) :
    ∃ (m : ℤ) (j : ℕ), |m| < 2 ^ 53 ∧ v * 2 ^ 1074 = m * 2 ^ j := by
  obtain ⟨m, e, hm, low, -, rfl⟩ := h
  obtain ⟨j, hj⟩ := Int.eq_ofNat_of_zero_le (show 0 ≤ e + 1074 by omega)
  refine ⟨m, j, hm, ?_⟩
  have shift : (2 : ℚ) ^ e * 2 ^ 1074 = 2 ^ j := by
    rw [← zpow_natCast, ← zpow_natCast, ← zpow_add₀ two_ne_zero]
    exact congrArg _ hj
  rw [mul_assoc, shift]

/-! ## (2) Rounding to a natural -/

theorem roundHalfEven_near {n d : ℕ} (hd : 0 < d) : |(roundHalfEven n d : ℚ) - n / d| ≤ 1 / 2 ∧
    (|(roundHalfEven n d : ℚ) - n / d| = 1 / 2 → Even (roundHalfEven n d)) := by
  have positive : (0 : ℚ) < d := by exact_mod_cast hd
  have split : (n : ℚ) / d = (n / d : ℕ) + (n % d : ℕ) / d := by
    rw [eq_comm, ← mul_right_inj' positive.ne', mul_add, mul_div_cancel₀ _ positive.ne', mul_div_cancel₀ _ positive.ne']
    exact_mod_cast Nat.div_add_mod n d
  have rest : (0 : ℚ) ≤ (n % d : ℕ) / d := by positivity
  have below : ((n % d : ℕ) : ℚ) / d < 1 := (div_lt_one positive).mpr (by exact_mod_cast Nat.mod_lt n hd)
  unfold roundHalfEven
  dsimp only
  rw [split]
  generalize n / d = q
  by_cases down : 2 * (n % d) < d
  · have half : ((n % d : ℕ) : ℚ) / d < 1 / 2 := by
      rw [div_lt_div_iff₀ positive two_pos]
      exact_mod_cast (by omega : n % d * 2 < 1 * d)
    rw [if_pos down, sub_add_cancel_left, abs_neg, abs_of_nonneg rest]
    exact ⟨half.le, fun tie => absurd tie half.ne⟩
  by_cases up : d < 2 * (n % d)
  · have half : (1 : ℚ) / 2 < (n % d : ℕ) / d := by
      rw [div_lt_div_iff₀ two_pos positive]
      exact_mod_cast (by omega : 1 * d < n % d * 2)
    rw [if_neg down, if_pos up, Nat.cast_add, Nat.cast_one, add_sub_add_left_eq_sub, abs_of_pos (by linarith)]
    exact ⟨by linarith, fun tie => by linarith⟩
  · have half : ((n % d : ℕ) : ℚ) / d = 1 / 2 := by
      rw [div_eq_div_iff positive.ne' two_ne_zero]
      exact_mod_cast (by omega : n % d * 2 = 1 * d)
    have even : Even (q + q % 2) := by
      rw [Nat.even_iff]
      omega
    rw [if_neg down, if_neg up, half]
    refine ⟨?_, fun _ => even⟩
    rcases Nat.mod_two_eq_zero_or_one q with h | h
    · rw [h, add_zero, sub_add_cancel_left, abs_neg, abs_of_nonneg (by positivity)]
    · rw [h, Nat.cast_add, Nat.cast_one, add_sub_add_left_eq_sub, abs_of_nonneg (by norm_num)]
      norm_num

/-- Another integer is as near only if both are half a step away. -/
theorem integer_near {k m : ℤ} {y : ℚ} (h : |k - y| ≤ 1 / 2) (hne : m ≠ k) :
    |k - y| ≤ |m - y| ∧ (|m - y| = |k - y| → |k - y| = 1 / 2) := by
  have apart : (1 : ℚ) ≤ |(m : ℚ) - k| := by exact_mod_cast Int.one_le_abs (sub_ne_zero.mpr hne)
  have triangle : |(m : ℚ) - k| ≤ |m - y| + |k - y| := by
    rw [abs_sub_comm (k : ℚ) y]
    exact abs_sub_le _ _ _
  exact ⟨by linarith, fun tie => by linarith⟩

/-! ## (3) Rounding in steps -/

/-- How many steps of 2^`s` units the rational is. -/
def inSteps (r : ℚ) (s : ℕ) : ℚ := r * 2 ^ 1074 / 2 ^ s

/-- `q` is the rounding of `r` in steps of 2^`s` units. The steps need 53 bits, or they are units. -/
structure Steps (r : ℚ) (s q : ℕ) : Prop where
  near : |q - inSteps r s| ≤ 1 / 2
  even : |q - inSteps r s| = 1 / 2 → Even q
  high : inSteps r s < 2 ^ 53
  low : s = 0 ∨ 2 ^ 52 ≤ inSteps r s

theorem log2_steps (n : ℕ) {d : ℕ} (hd : 0 < d) : n < d * 2 ^ ((n / d).log2 - 52) * 2 ^ 53 ∧
    ((n / d).log2 - 52 = 0 ∨ d * 2 ^ ((n / d).log2 - 52) * 2 ^ 52 ≤ n) := by
  rw [mul_assoc, mul_assoc, ← pow_add, ← pow_add]
  constructor
  · have size : n / d < 2 ^ ((n / d).log2 - 52 + 53) :=
      lt_of_lt_of_le Nat.lt_log2_self (Nat.pow_le_pow_right two_pos (by omega))
    rw [mul_comm]
    exact (Nat.div_lt_iff_lt_mul hd).mp size
  · by_cases small : (n / d).log2 - 52 = 0
    · exact .inl small
    · have size : 2 ^ ((n / d).log2 - 52 + 52) ≤ n / d := by
        have positive : n / d ≠ 0 := fun hz => by simp [hz] at small
        rw [Nat.sub_add_cancel (by omega)]
        exact Nat.log2_self_le positive
      rw [mul_comm]
      exact .inr ((Nat.le_div_iff_mul_le hd).mp size)

/-- The logarithm of the number of units gives the size of the steps. -/
theorem exists_steps (n : ℕ) {d : ℕ} (hd : 0 < d) :
    ∃ s q, Steps (n / d) s q ∧ nearest n d = ofBits (s * 2 ^ 52 + q) := by
  let s := (n <<< 1074 / d).log2 - 52
  have positive : 0 < d * 2 ^ s := Nat.mul_pos hd (Nat.two_pow_pos s)
  have positive' : (0 : ℚ) < (d * 2 ^ s : ℕ) := by exact_mod_cast positive
  have shifted (k : ℕ) : (n / d : ℚ) * 2 ^ k / 2 ^ s = (n <<< k : ℕ) / (d * 2 ^ s : ℕ) := by
    rw [Nat.shiftLeft_eq, Nat.cast_mul, Nat.cast_mul, Nat.cast_pow, Nat.cast_pow, Nat.cast_ofNat, div_mul_eq_mul_div,
      div_div]
  have count : inSteps (n / d) s = (n <<< 1074 : ℕ) / (d * 2 ^ s : ℕ) := shifted 1074
  obtain ⟨near, even⟩ := roundHalfEven_near (n := n <<< 1074) positive
  obtain ⟨high, low⟩ := log2_steps (n <<< 1074) hd
  refine ⟨s, roundHalfEven (n <<< 1074) (d * 2 ^ s), ⟨?_, ?_, ?_, ?_⟩, ?_⟩
  · rw [count]
    exact near
  · rw [count]
    exact even
  · rw [count, div_lt_iff₀ positive', mul_comm]
    exact_mod_cast high
  · refine low.imp_right fun low => ?_
    rw [count, le_div_iff₀ positive', mul_comm]
    exact_mod_cast low
  · rw [nearest, Nat.shiftLeft_eq d, Nat.shiftLeft_eq _ 52]

theorem ofBits_eq_infinity {b : ℕ} : ofBits b = infinity ↔ infinityBits ≤ b := by
  unfold ofBits
  split
  · rename_i h
    constructor
    · intro he
      exact (congrArg bits he).ge
    · intro hb
      obtain rfl := Nat.le_antisymm h hb
      rfl
  · rename_i h
    exact ⟨fun _ => by omega, fun _ => rfl⟩

theorem bits_ofBits {b : ℕ} (h : ofBits b ≠ infinity) : (ofBits b).bits = b := by
  have small : b ≤ infinityBits := Nat.le_of_not_le fun hb => h (ofBits_eq_infinity.mpr hb)
  rw [ofBits, dif_pos small]

theorem two_pow_mul {a b c e : ℕ} (h : a + b = c + e) : (2 : ℚ) ^ a * 2 ^ b = 2 ^ c * 2 ^ e := by
  rw [← pow_add, ← pow_add, h]

/-- The bound of the finite numbers in units. -/
theorem overflow_units {r : ℚ} : 2 ^ 1024 - 2 ^ 970 ≤ r ↔ (2 ^ 53 - 1 / 2) * 2 ^ 2045 ≤ r * 2 ^ 1074 := by
  have half : (1 : ℚ) / 2 * 2 ^ 2045 = 2 ^ 970 * 2 ^ 1074 := by
    rw [pow_succ 2 2044, mul_comm, mul_assoc, mul_one_div_cancel two_ne_zero, mul_one, ← pow_add 2 970 1074]
  have bound : (2 ^ 53 - 1 / 2) * 2 ^ 2045 = ((2 : ℚ) ^ 1024 - 2 ^ 970) * 2 ^ 1074 := by
    rw [sub_mul, sub_mul, half, two_pow_mul (show 53 + 2045 = 1024 + 1074 from rfl)]
  rw [bound, mul_le_mul_iff_left₀ (by positivity)]

namespace Steps

variable {r : ℚ} {s q : ℕ} {x : Binary64}

theorem bounds (h : Steps r s q) : q ≤ 2 ^ 53 ∧ (s = 0 ∨ 2 ^ 52 ≤ q) := by
  have near := abs_le.mp h.near
  have high := h.high
  constructor
  · have : (q : ℚ) < 2 ^ 53 + 1 := by linarith
    exact Nat.lt_succ_iff.mp (by exact_mod_cast this)
  · refine h.low.imp_right fun low => ?_
    have : (2 : ℚ) ^ 52 < q + 1 := by linarith
    exact Nat.lt_succ_iff.mp (by exact_mod_cast this)

/-- A carry into the exponent is the first number with the next larger steps. -/
theorem units_eq (h : Steps r s q) (hx : x.bits = s * 2 ^ 52 + q) : x.units = q * 2 ^ s := by
  obtain ⟨step, hb, hs, full, -, hu⟩ := x.exists_step
  obtain ⟨hq, low⟩ := h.bounds
  rw [hu]
  by_cases carry : q = 2 ^ 53
  · obtain rfl : step = s + 1 := by omega
    have first : x.significand = 2 ^ 52 := by omega
    rw [first, carry, pow_succ]
    ring
  · obtain rfl : step = s := by omega
    have same : x.significand = q := by omega
    rw [same]

theorem even_significand (hx : x.bits = s * 2 ^ 52 + q) (hq : Even q) : Even x.significand := by
  obtain ⟨step, hb, -⟩ := x.exists_step
  rw [Nat.even_iff] at hq ⊢
  omega

/-- The steps reach infinity where the rational is nearer to 2^1024 than to the largest finite number, or as near. -/
theorem overflow (h : Steps r s q) : infinityBits ≤ s * 2 ^ 52 + q ↔ 2 ^ 1024 - 2 ^ 970 ≤ r := by
  have top : infinityBits = 2047 * 2 ^ 52 := rfl
  have units : r * 2 ^ 1074 = inSteps r s * 2 ^ s := by
    rw [inSteps, div_mul_cancel₀]
    positivity
  obtain ⟨hq, hlow⟩ := h.bounds
  have near := abs_le.mp h.near
  rw [overflow_units, units]
  rcases lt_trichotomy s 2045 with hs | rfl | hs
  · have finite : inSteps r s * 2 ^ s < (2 ^ 53 - 1 / 2) * 2 ^ 2045 := calc
      inSteps r s * 2 ^ s < 2 ^ 53 * 2 ^ s := mul_lt_mul_of_pos_right h.high (by positivity)
      _ ≤ 2 ^ 53 * 2 ^ 2044 :=
        mul_le_mul_of_nonneg_left (pow_le_pow_right₀ one_le_two (Nat.le_of_lt_succ hs)) (by positivity)
      _ = 2 ^ 52 * 2 ^ 2045 := two_pow_mul rfl
      _ ≤ (2 ^ 53 - 1 / 2) * 2 ^ 2045 := mul_le_mul_of_nonneg_right (by norm_num) (by positivity)
    exact iff_of_false (by omega) (not_le.mpr finite)
  · rw [mul_le_mul_iff_left₀ (by positivity)]
    constructor
    · intro hb
      obtain rfl : q = 2 ^ 53 := by omega
      push_cast at near
      linarith
    · intro hr
      have last : (2 : ℚ) ^ 53 < q + 2 := by linarith
      have last : 2 ^ 53 < q + 2 := by exact_mod_cast last
      -- The largest odd count is as near as the next one only in a tie, which does not go to it.
      have carry : q ≠ 2 ^ 53 - 1 := by
        rintro rfl
        have tie := h.even (le_antisymm h.near (le_abs.mpr (.inr (by push_cast; linarith))))
        exact absurd tie (by decide)
      omega
  · have infinite : (2 ^ 53 - 1 / 2) * 2 ^ 2045 ≤ inSteps r s * 2 ^ s := calc
      (2 ^ 53 - 1 / 2) * 2 ^ 2045 ≤ (2 : ℚ) ^ 53 * 2 ^ 2045 := mul_le_mul_of_nonneg_right (by norm_num) (by positivity)
      _ = 2 ^ 52 * 2 ^ 2046 := two_pow_mul rfl
      _ ≤ 2 ^ 52 * 2 ^ s := mul_le_mul_of_nonneg_left (pow_le_pow_right₀ one_le_two hs) (by positivity)
      _ ≤ inSteps r s * 2 ^ s := mul_le_mul_of_nonneg_right (h.low.resolve_left (by omega)) (by positivity)
    exact iff_of_true (by omega) infinite

/-- No integer is nearer than the counted steps, and if another is as near, the count is even. -/
theorem integer (h : Steps r s q) (m : ℤ) : |q - inSteps r s| ≤ |m - inSteps r s| ∧
    ((m : ℚ) ≠ q → |m - inSteps r s| = |q - inSteps r s| → Even q) := by
  by_cases same : m = q
  · rw [same, Int.cast_natCast]
    exact ⟨le_rfl, fun hne => absurd rfl hne⟩
  · obtain ⟨le, tie⟩ := integer_near (k := q) h.near same
    exact ⟨le, fun _ he => h.even (tie he)⟩

/-- No multiple of a power of two by 53 bits is nearer. -/
theorem multiple (h : Steps r s q) {m : ℤ} (hm : |m| < 2 ^ 53) (j : ℕ) :
    |q - inSteps r s| ≤ |m * 2 ^ j / 2 ^ s - inSteps r s| ∧
      (m * 2 ^ j / 2 ^ s ≠ (q : ℚ) → |m * 2 ^ j / 2 ^ s - inSteps r s| = |q - inSteps r s| → Even q) := by
  by_cases hj : s ≤ j
  · obtain ⟨k, rfl⟩ := Nat.exists_eq_add_of_le hj
    have whole : (m : ℚ) * 2 ^ (s + k) / 2 ^ s = (m * 2 ^ k : ℤ) := by
      rw [pow_add, mul_left_comm, mul_div_cancel_left₀ _ (by positivity)]
      push_cast
      rfl
    rw [whole]
    exact h.integer _
  · -- In smaller steps 53 bits do not reach above 2^52, which is a whole number of the counted steps.
    have low := h.low.resolve_left (by omega)
    have small : (m : ℚ) * 2 ^ j / 2 ^ s < 2 ^ 52 := by
      have significand : (m : ℚ) < 2 ^ 53 := by exact_mod_cast (le_abs_self m).trans_lt hm
      rw [div_lt_iff₀ (by positivity)]
      calc (m : ℚ) * 2 ^ j < 2 ^ 53 * 2 ^ j := mul_lt_mul_of_pos_right significand (by positivity)
        _ = 2 ^ 52 * 2 ^ (j + 1) := two_pow_mul (by omega)
        _ ≤ 2 ^ 52 * 2 ^ s := mul_le_mul_of_nonneg_left (pow_le_pow_right₀ one_le_two (by omega)) (by positivity)
    have near := (h.integer (2 ^ 52)).1
    rw [Int.cast_pow, Int.cast_ofNat, abs_of_nonpos (sub_nonpos.mpr low)] at near
    have far := neg_le_abs ((m : ℚ) * 2 ^ j / 2 ^ s - inSteps r s)
    exact ⟨by linarith, fun _ tie => by linarith⟩

/-- The number made of the counted steps is the correct rounding. -/
theorem rounds (h : Steps r s q) : Rounds r (ofBits (s * 2 ^ 52 + q)) := by
  have scale : (0 : ℚ) < 2 ^ 1074 / 2 ^ s := by positivity
  have distance (v w : ℚ) (hv : v * 2 ^ 1074 = w * 2 ^ s) : |v - r| * (2 ^ 1074 / 2 ^ s) = |w - inSteps r s| := by
    have count : w - inSteps r s = (v - r) * (2 ^ 1074 / 2 ^ s) := by
      rw [inSteps, sub_mul, ← mul_div_assoc, ← mul_div_assoc, hv, mul_div_cancel_right₀ _ (by positivity)]
    rw [count, abs_mul, abs_of_pos scale]
  have made (hx : ofBits (s * 2 ^ 52 + q) ≠ infinity) :
      (ofBits (s * 2 ^ 52 + q)).value * 2 ^ 1074 = (q : ℚ) * 2 ^ s := by
    rw [value_eq, h.units_eq (bits_ofBits hx), div_mul_cancel₀ _ (by positivity)]
    push_cast
    rfl
  have other {v : ℚ} (hv : Representable v) : ∃ (m : ℤ) (j : ℕ), |m| < 2 ^ 53 ∧
      v * 2 ^ 1074 = m * 2 ^ j / 2 ^ s * 2 ^ s := by
    obtain ⟨m, j, hm, hv⟩ := hv.units
    refine ⟨m, j, hm, ?_⟩
    rw [hv, div_mul_cancel₀ _ (by positivity)]
  refine ⟨ofBits_eq_infinity.trans h.overflow, fun hx v hv => ?_, fun hx v hv hne tie => ?_⟩
  · obtain ⟨m, j, hm, hv⟩ := other hv
    have near := (h.multiple hm j).1
    rw [← distance _ _ (made hx), ← distance _ _ hv] at near
    exact le_of_mul_le_mul_right near scale
  · obtain ⟨m, j, hm, hv⟩ := other hv
    refine even_significand (bits_ofBits hx) ((h.multiple hm j).2 (fun same => hne ?_) ?_)
    · rw [same, ← made hx] at hv
      exact mul_right_cancel₀ (by positivity) hv
    · rw [← distance _ _ (made hx), ← distance _ _ hv, tie]

end Steps

theorem rounds_nearest (n : ℕ) {d : ℕ} (hd : 0 < d) : Rounds (n / d) (nearest n d) := by
  obtain ⟨s, q, steps, reply⟩ := exists_steps n hd
  rw [reply]
  exact steps.rounds

/-! ## (4) Order -/

/-- A larger rational is not rounded to a smaller number. -/
theorem Rounds.le {r r' : ℚ} {x x' : Binary64} (h : Rounds r x) (h' : Rounds r' x') (hr : r < r') : x ≤ x' := by
  by_cases infinite : x' = infinity
  · exact .inl infinite
  have finite : x ≠ infinity := fun hx => infinite (h'.overflow.mpr ((h.overflow.mp hx).trans hr.le))
  refine .inr ⟨finite, le_of_not_gt fun hlt => ?_⟩
  -- The larger rational would be on the side of the smaller number, and the smaller rational on that of the larger.
  have near := sq_le_sq.mpr (h.nearest finite _ (representable_value infinite))
  have near' := sq_le_sq.mpr (h'.nearest infinite _ (representable_value finite))
  have apart := mul_pos (sub_pos.mpr hlt) (sub_pos.mpr hr)
  linarith

/-- The rounding of a fraction is that of the same fraction in other terms. -/
theorem nearest_mul (n : ℕ) {d k : ℕ} (hk : 0 < k) : nearest (n * k) (d * k) = nearest n d := by
  have half (a b : ℕ) : roundHalfEven (a * k) (b * k) = roundHalfEven a b := by
    have quotient : a * k / (b * k) = a / b := Nat.mul_div_mul_right a b hk
    have rest : 2 * (a * k % (b * k)) = 2 * (a % b) * k := by rw [Nat.mul_mod_mul_right, mul_assoc]
    unfold roundHalfEven
    simp only [quotient, rest, Nat.mul_lt_mul_right hk]
  have shift (a i : ℕ) : (a * k) <<< i = a <<< i * k := by
    rw [Nat.shiftLeft_eq, Nat.shiftLeft_eq, Nat.mul_right_comm]
  unfold nearest
  simp only [shift, Nat.mul_div_mul_right _ _ hk, half]

theorem nearest_congr {n d n' d' : ℕ} (hd : 0 < d) (hd' : 0 < d') (h : n * d' = n' * d) : nearest n d = nearest n' d' := by
  rw [← nearest_mul n hd', ← nearest_mul n' hd, h, mul_comm d d']

theorem le_refl (x : Binary64) : x ≤ x := by
  by_cases h : x = infinity
  · exact .inl h
  · exact .inr ⟨h, le_rfl⟩

end Binary64

/-! ## (5) Decimal fractions -/

theorem decimalValue_append (w f : Text) : decimalValue (w ++ f) = decimalValue w * 10 ^ f.length + decimalValue f := by
  induction f using List.reverseRecOn with
  | nil => simp [decimalValue]
  | append_singleton f c ih =>
    rw [← List.append_assoc, decimalValue_concat, decimalValue_concat, ih, List.length_append, List.length_singleton,
      pow_succ]
    unfold appendDigit
    ring

/-- The digits before the point and behind it, over the power of ten of those behind it. -/
theorem decimalFraction_eq (w f : Text) :
    decimalFraction w f = (decimalValue (w ++ f) : ℚ) / (Nat.pow 10 f.length : ℕ) := by
  have power : ((Nat.pow 10 f.length : ℕ) : ℚ) = 10 ^ f.length := Nat.cast_pow 10 f.length
  rw [power, decimalValue_append, Nat.cast_add, Nat.cast_mul, Nat.cast_pow, Nat.cast_ofNat, add_div,
    mul_div_cancel_right₀ _ (by positivity), decimalFraction]

namespace Binary64

theorem rounds_ofDecimal (w f : Text) : Rounds (decimalFraction w f) (ofDecimal w f) := by
  rw [decimalFraction_eq]
  exact rounds_nearest _ (Nat.pow_pos (by decide))

theorem ofDecimal_congr {w f w' f' : Text} (h : decimalFraction w f = decimalFraction w' f') :
    ofDecimal w f = ofDecimal w' f' := by
  have power (f : Text) : 0 < Nat.pow 10 f.length := Nat.pow_pos (by decide)
  have power' (f : Text) : ((Nat.pow 10 f.length : ℕ) : ℚ) ≠ 0 := by exact_mod_cast (power f).ne'
  rw [decimalFraction_eq, decimalFraction_eq, div_eq_div_iff (power' f) (power' f')] at h
  exact nearest_congr (power f) (power f') (by exact_mod_cast h)

theorem ofDecimal_mono {w f w' f' : Text} (h : decimalFraction w f ≤ decimalFraction w' f') :
    ofDecimal w f ≤ ofDecimal w' f' := by
  rcases h.lt_or_eq with h | h
  · exact (rounds_ofDecimal w f).le (rounds_ofDecimal w' f') h
  · rw [ofDecimal_congr h]
    exact le_refl _

end Binary64

theorem parse_real {w f : Text} (hw : Digits w) (hf : Digits f) :
    Rule.real.parse (w ++ '.' :: f) = .ok (.ofDecimal w f) := by
  have takes : Rule.Takes False Rule.real (w ++ '.' :: f) (.ofDecimal w f) [] := Rule.takes_real hw hf (stops_nil _)
  have parsed := takes.parse spaces_nil id
  rwa [List.append_nil] at parsed

/-- Digits, a point and digits are read as the correct rounding of the decimal fraction, however many digits there are.
    A larger fraction does not yield a smaller number, and one fraction yields one number, whatever its digits. -/
theorem parse_real_rounds {w f : Text} (hw : Digits w) (hf : Digits f) :
    ∃ x, Rule.real.parse (w ++ '.' :: f) = .ok x ∧ Binary64.Rounds (decimalFraction w f) x ∧
      ∀ w' f' x', Digits w' → Digits f' → Rule.real.parse (w' ++ '.' :: f') = .ok x' →
        (decimalFraction w f ≤ decimalFraction w' f' → x ≤ x') ∧
        (decimalFraction w f = decimalFraction w' f' → x = x') := by
  refine ⟨.ofDecimal w f, parse_real hw hf, Binary64.rounds_ofDecimal w f, fun w' f' x' hw' hf' h => ?_⟩
  rw [parse_real hw' hf'] at h
  obtain rfl := Except.ok.inj h
  exact ⟨Binary64.ofDecimal_mono, Binary64.ofDecimal_congr⟩

/-- A tie between 2^53 and the next number, which has an odd significand. -/
theorem parse_real_rounds_tie :
    ∃ x, Rule.real.parse ("9007199254740993".toList ++ '.' :: "0".toList) = .ok x ∧ x.bits = 0x4340000000000000 ∧
      Binary64.Rounds 9007199254740993 x := by
  have whole : Digits "9007199254740993".toList := by simp [Digits]
  have fraction : Digits "0".toList := by simp [Digits]
  have value : decimalFraction "9007199254740993".toList "0".toList = 9007199254740993 := by
    have w : decimalValue "9007199254740993".toList = 9007199254740993 := by rfl
    have f : decimalValue "0".toList = 0 := by rfl
    rw [decimalFraction, w, f]
    norm_num
  obtain ⟨x, hx, rounds, -⟩ := parse_real_rounds whole fraction
  rw [value] at rounds
  have bits : x.bits = 0x4340000000000000 := by
    rw [parse_real whole fraction] at hx
    rw [← Except.ok.inj hx]
    decide +kernel
  exact ⟨x, hx, bits, rounds⟩

end LineBasic
