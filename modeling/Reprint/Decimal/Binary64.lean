/-!
Finite binary64 numbers in exact arithmetic. A number is a sign and a mantissa times a power of two; every
operation computes the exact quotient of two naturals and rounds it once, to the nearest number, a half to
the even neighbour.
-/

namespace Reprint

/-- The number `mantissa * 2 ^ exponent`, negated if `negative`. The mantissa has at most 53 bits, and all
53 unless the exponent is the least one. -/
structure Binary64 where
  negative : Bool
  mantissa : Nat
  exponent : Int
deriving DecidableEq

namespace Binary64

/-- The exponent of the smallest numbers. -/
def leastExponent : Int := -1074

/-- The exponent of the greatest numbers. -/
def greatestExponent : Int := 971

/-- A quotient rounded to the nearest natural number, a half to the even one. -/
def roundDiv (num den : Nat) : Nat :=
  let q := num / den
  let r := num % den
  if den < 2 * r ∨ (2 * r = den ∧ q % 2 = 1) then q + 1 else q

/-- The quotient `num / den` divided by `2 ^ e`, as a pair of naturals. -/
def scale (num den : Nat) (e : Int) : Nat × Nat :=
  if 0 ≤ e then (num, den * Nat.pow 2 e.toNat) else (num * Nat.pow 2 (-e).toNat, den)

/-- The exponent with which a positive quotient gets a mantissa of 53 bits, or the least one. -/
def fittingExponent (num den : Nat) : Int :=
  let e : Int := (num.log2 : Int) - den.log2
  let (n, d) := scale num den e
  let top := if n < d then e - 1 else e
  max (top - 52) leastExponent

/-- The number nearest to the quotient of two naturals, none if it would be too great. -/
def ofRatio? (negative : Bool) (num den : Nat) : Option Binary64 :=
  if num = 0 then some { negative, mantissa := 0, exponent := leastExponent }
  else
    let e := fittingExponent num den
    let (n, d) := scale num den e
    let m := roundDiv n d
    let (m, e) := if m = Nat.pow 2 53 then (Nat.pow 2 52, e + 1) else (m, e)
    if e ≤ greatestExponent then some { negative, mantissa := m, exponent := e } else none

/-- The magnitude of a number as a quotient of two naturals. -/
def ratio (x : Binary64) : Nat × Nat :=
  if 0 ≤ x.exponent then (x.mantissa * Nat.pow 2 x.exponent.toNat, 1)
  else (x.mantissa, Nat.pow 2 (-x.exponent).toNat)

/-- Zero, of either sign. -/
def isZero (x : Binary64) : Bool := x.mantissa == 0

/-- Equality of values: the two zeros are the same number. -/
def sameValue (x y : Binary64) : Bool :=
  (x.isZero && y.isZero) || x == y

/-- The product of two magnitudes, with the sign of the first factor. -/
def mul? (x y : Binary64) : Option Binary64 :=
  ofRatio? x.negative (x.ratio.1 * y.ratio.1) (x.ratio.2 * y.ratio.2)

/-- The quotient of two magnitudes, with the sign of the dividend. -/
def div? (x y : Binary64) : Option Binary64 :=
  ofRatio? x.negative (x.ratio.1 * y.ratio.2) (x.ratio.2 * y.ratio.1)

end Binary64

end Reprint
