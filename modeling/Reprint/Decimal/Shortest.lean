import Reprint.Decimal.Binary64
import Reprint.Text.Basic
/-!
The shortest decimal text of a number: the fewest digits that read back as the number, and of those the
nearest to it. Digits are tried on ever finer decimal grids; on each only the two neighbours of the number
can be nearest. How it is then written down, with or without an exponent, is the business of a `Style`.
-/

namespace Reprint.Decimal

/-- Which of two equally near decimals is taken. -/
inductive Tie where
  | up
  | even
deriving DecidableEq

/-- The decimal `0.d₁d₂… * 10 ^ point`, its digits without trailing zeros. -/
structure Digits where
  digits : List Char
  point : Int
deriving DecidableEq

/-- The quotient `num / den` divided by `10 ^ e`, as a pair of naturals. -/
def scale (num den : Nat) (e : Int) : Nat × Nat :=
  if 0 ≤ e then (num, den * Nat.pow 10 e.toNat) else (num * Nat.pow 10 (-e).toNat, den)

/-- The least `p` for which a positive quotient is below `10 ^ p`. -/
def magnitude (num den : Nat) : Int :=
  if den ≤ num then (Nat.toDigits 10 (num / den)).length
  else
    match (List.range 400).find? fun j => den ≤ num * Nat.pow 10 (j + 1) with
    | some j => -(j : Int)
    | none => -400

/-- The numbers that read back as `x` lie between these two quarters of its last place, the ends included
if the mantissa is even. -/
def bounds (x : Binary64) : Nat × Nat :=
  let m := x.mantissa
  let lower := if m = Nat.pow 2 52 ∧ Binary64.leastExponent < x.exponent then 4 * m - 1 else 4 * m - 2
  (lower, 4 * m + 2)

/-- Whether the decimal `c * 10 ^ e` reads back as `x`. -/
def readsBack (x : Binary64) (c : Nat) (e : Int) : Bool :=
  let (lower, upper) := bounds x
  -- Both sides as multiples of a quarter of the last place.
  let (n, d) := scale c 1 (-e)
  let (n, d) := Binary64.scale n d (x.exponent - 2)
  if x.mantissa % 2 = 0 then lower * d ≤ n && n ≤ upper * d
  else lower * d < n && n < upper * d

/-- The decimal on the grid of `10 ^ e` that is nearest to `x` among those that read back. -/
def onGrid? (tie : Tie) (x : Binary64) (e : Int) : Option Nat :=
  let (n, d) := scale x.ratio.1 x.ratio.2 e
  let low := n / d
  let r := n % d
  match readsBack x low e, readsBack x (low + 1) e with
  | true, true =>
    let nearerUp := d < 2 * r ∨ (2 * r = d ∧ (tie = .up ∨ low % 2 = 1))
    some (if nearerUp then low + 1 else low)
  | true, false => some low
  | false, true => some (low + 1)
  | false, false => none

/-- The shortest digits of a number other than zero. -/
def shortest (tie : Tie) (x : Binary64) : Digits :=
  let p := magnitude x.ratio.1 x.ratio.2
  let found := (List.range 17).findSome? fun i =>
    let e := p - (i + 1 : Nat)
    (onGrid? tie x e).map fun c => (c, e)
  let (c, e) := found.getD (0, 0)
  let text := Nat.toDigits 10 c
  { digits := (text.reverse.dropWhile (· == '0')).reverse, point := e + text.length }

/-- How decimals are written: without an exponent from `10 ^ (least - 1)` up to `10 ^ 16`, and which of two
equally near ones is taken. -/
structure Style where
  least : Int
  tie : Tie

/-- The digits with the point set among them, and at least one digit on each side of it. -/
def positional (d : Digits) : Text :=
  if d.point ≤ 0 then ['0', '.'] ++ List.replicate (-d.point).toNat '0' ++ d.digits
  else
    let n := d.point.toNat
    let whole := d.digits.take n ++ List.replicate (n - d.digits.length) '0'
    let part := d.digits.drop n
    whole ++ '.' :: (if part.isEmpty then ['0'] else part)

/-- The digits with the point after the first one, and an exponent. -/
def scientific (d : Digits) : Text :=
  let rest := d.digits.drop 1
  d.digits.take 1 ++ (if rest.isEmpty then [] else '.' :: rest) ++ 'e' :: (toString (d.point - 1)).toList

/-- The text of a number. It always holds a point or an exponent. -/
def render (style : Style) (x : Binary64) : Text :=
  let sign := if x.negative then ['-'] else []
  if x.isZero then sign ++ ['0', '.', '0']
  else
    let d := shortest style.tie x
    sign ++ if style.least ≤ d.point ∧ d.point ≤ 16 then positional d else scientific d

end Reprint.Decimal
