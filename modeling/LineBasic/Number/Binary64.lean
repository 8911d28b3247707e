import LineBasic.Number.Decimal

/-
  LineBasic.Number.Binary64 — the non-negative binary64 numbers, infinity included, and the nearest one to a fraction.

  A number is kept by its bits, so equal numbers are equal values of the type. All arithmetic is done on naturals in
  units of 2^-1074, the least positive number: there every finite number is a natural, and a number below 2^53 units
  is its own bit pattern. Above that, each doubling of the number doubles the distance to its neighbours.
-/

namespace LineBasic

/-- The bits of infinity: the exponent field is full and the fraction field empty. -/
def infinityBits : Nat := 0x7ff0000000000000

/-- A non-negative binary64 number by its bits. No bit pattern above infinity is one. -/
structure Binary64 where
  bits : Nat
  bits_le : bits ≤ infinityBits
  deriving DecidableEq, Repr

namespace Binary64

def infinity : Binary64 := ⟨infinityBits, Nat.le_refl _⟩

/-- The number with these bits; bits beyond infinity stand for infinity. -/
def ofBits (bits : Nat) : Binary64 := if h : bits ≤ infinityBits then ⟨bits, h⟩ else infinity

/-- The number as a multiple of 2^-1074. For infinity this is what the next number would be if the range went on. -/
def units (x : Binary64) : Nat :=
  let field := x.bits >>> 52
  let fraction := x.bits % (1 <<< 52)
  if field = 0 then fraction else ((1 <<< 52) + fraction) <<< (field - 1)

/-- The natural nearest to `n / d`, the even one of two that are equally near. -/
def roundHalfEven (n d : Nat) : Nat :=
  let q := n / d
  let r := n % d
  if 2 * r < d then q else if d < 2 * r then q + 1 else q + q % 2

/-- The number nearest to `n / d`, the one with an even last bit if two are equally near, infinity from
    2^1024 - 2^970 on. Rounding is to a whole number of steps of 2^`step` units, with 53 significant bits; a rounding
    up to 2^53 steps carries into the exponent field by itself. -/
def nearest (n d : Nat) : Binary64 :=
  let scaled := n <<< 1074
  let step := (scaled / d).log2 - 52
  ofBits ((step <<< 52) + roundHalfEven scaled (d <<< step))

/-- The number nearest to the decimal fraction with the digits `whole` before its point and `fraction` after it. -/
def ofDecimal (whole fraction : Text) : Binary64 :=
  nearest (decimalValue (whole ++ fraction)) (Nat.pow 10 fraction.length)

end Binary64

end LineBasic
