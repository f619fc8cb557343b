import Reprint.Decimal.Binary64
import Reprint.Text.Basic
/-!
TOML values that are written as one run of characters: integers, floats, booleans, dates and times.
-/

namespace Reprint.Toml

/-- A scalar other than a string. Floats and dates are kept as written. -/
inductive Scalar where
  | bool (b : Bool)
  | int (n : Int)
  | float (t : Text)
  | date (t : Text)

/-- Characters that scalars are written with. -/
def isScalarChar (c : Char) : Bool :=
  c.isAlphanum || c == '_' || c == '+' || c == '-' || c == '.' || c == ':'

/-- The value of a digit in a base of at most 16. -/
def digit? (base : Nat) (c : Char) : Option Nat :=
  let n :=
    if '0' ≤ c ∧ c ≤ '9' then c.toNat - '0'.toNat
    else if 'a' ≤ c ∧ c ≤ 'f' then c.toNat - 'a'.toNat + 10
    else if 'A' ≤ c ∧ c ≤ 'F' then c.toNat - 'A'.toNat + 10
    else 16
  if n < base then some n else none

/-- The digits of a number, with single underscores allowed between them. -/
def digits? (base : Nat) (t : Text) : Option (List Nat) := do
  let parts := t.splitOn '_'
  guard (parts.all (!·.isEmpty))
  parts.flatten.mapM (digit? base)

/-- The number of given digits. -/
def ofDigits (base : Nat) (ds : List Nat) : Nat := ds.foldl (fun n d => n * base + d) 0

/-- A text without its sign, and whether the sign is a minus. -/
def unsigned : Text → Bool × Text
  | '-' :: t => (true, t)
  | '+' :: t => (false, t)
  | t => (false, t)

/-- Decimal digits without a zero in front, unless the zero stands alone. -/
def decimal? (t : Text) : Option (List Nat) :=
  match t with
  | '0' :: _ :: _ => none
  | t => digits? 10 t

/-- An integer of at most 64 bits. -/
def int? (t : Text) : Option Int := do
  let n : Int ← match t with
    | '0' :: 'x' :: t => (digits? 16 t).map fun ds => (ofDigits 16 ds : Int)
    | '0' :: 'o' :: t => (digits? 8 t).map fun ds => (ofDigits 8 ds : Int)
    | '0' :: 'b' :: t => (digits? 2 t).map fun ds => (ofDigits 2 ds : Int)
    | t =>
      let (negative, t) := unsigned t
      (decimal? t).map fun ds => let n := (ofDigits 10 ds : Int); if negative then -n else n
  guard (-Int.ofNat (Nat.pow 2 63) ≤ n ∧ n < Int.ofNat (Nat.pow 2 63))
  return n

/-! ### Floats -/

/-- Cuts a text before the first character that satisfies `p`. -/
def cutAt (p : Char → Bool) (t : Text) : Text × Text := (t.takeWhile (!p ·), t.dropWhile (!p ·))

/-- Whether a positive decimal is too great for a double. -/
def overflows (ds : List Nat) (exponent : Int) : Bool :=
  let n := ofDigits 10 ds
  let magnitude : Int := (ds.dropWhile (· == 0)).length + exponent
  if n = 0 ∨ magnitude < 0 then false
  else if 400 < magnitude then true
  else if 0 ≤ exponent then (Binary64.ofRatio? false (n * Nat.pow 10 exponent.toNat) 1).isNone
  else (Binary64.ofRatio? false n (Nat.pow 10 (-exponent).toNat)).isNone

/-- Whether a text is a float: it has a fraction or an exponent, or it is no number at all. Positive numbers
must be in range. -/
def isFloat (t : Text) : Bool :=
  let (negative, t) := unsigned t
  if t = "inf".toList ∨ t = "nan".toList then true
  else
    let (head, exp) := cutAt (fun c => c == 'e' || c == 'E') t
    let (whole, part) := cutAt (· == '.') head
    let parsed : Option Bool := do
      let ws ← decimal? whole
      let ps ← match part with
        | [] => some []
        | _ :: t => digits? 10 t
      let e : Int ← match exp with
        | [] => some 0
        | _ :: t =>
          let (down, t) := unsigned t
          (digits? 10 t).map fun ds => let n := (ofDigits 10 ds : Int); if down then -n else n
      guard (!part.isEmpty || !exp.isEmpty)
      return negative || !overflows (ws ++ ps) (e - ps.length)
    parsed.getD false

/-! ### Dates and times -/

/-- A number of exactly two digits. -/
def two? : Text → Option Nat
  | [a, b] => do return (← digit? 10 a) * 10 + (← digit? 10 b)
  | _ => none

/-- The number of days in a month. -/
def daysIn (year month : Nat) : Nat :=
  if month = 2 then
    if year % 4 = 0 ∧ (year % 100 ≠ 0 ∨ year % 400 = 0) then 29 else 28
  else if month = 4 ∨ month = 6 ∨ month = 9 ∨ month = 11 then 30
  else 31

/-- Whether a text is a date. -/
def isDay (t : Text) : Bool :=
  match t.splitOn '-' with
  | [[a, b, c, d], m, day] =>
    match two? [a, b], two? [c, d], two? m, two? day with
    | some y, some z, some m, some day => 1 ≤ m && m ≤ 12 && 1 ≤ day && day ≤ daysIn (y * 100 + z) m
    | _, _, _, _ => false
  | _ => false

/-- Whether a text is a number of two digits up to a limit. -/
def isUpTo (limit : Nat) (t : Text) : Bool := (two? t).any (· ≤ limit)

/-- Whether a text is a time. A minute may have a leap second. -/
def isTime (t : Text) : Bool :=
  match t.splitOn ':' with
  | [h, m, s] =>
    let (seconds, part) := cutAt (· == '.') s
    let fraction := match part with
      | [] => true
      | _ :: ds => !ds.isEmpty && ds.all Char.isDigit
    isUpTo 23 h && isUpTo 59 m && isUpTo 60 seconds && fraction
  | _ => false

/-- Whether a text is an offset from universal time. -/
def isZone : Text → Bool
  | ['Z'] | ['z'] => true
  | sign :: t =>
    (sign == '+' || sign == '-') &&
      match t.splitOn ':' with
      | [h, m] => isUpTo 23 h && isUpTo 59 m
      | _ => false
  | [] => false

/-- Whether a text is a time with or without a zone. -/
def isZonedTime (t : Text) : Bool :=
  let (time, zone) := cutAt (fun c => c == 'Z' || c == 'z' || c == '+' || c == '-') t
  isTime time && (zone.isEmpty || isZone zone)

/-- Whether a text is a date, a time, or both with a letter or a space between them. -/
def isDate (t : Text) : Bool :=
  isDay t || isTime t ||
    match cutAt (fun c => c == 'T' || c == 't' || c == ' ') t with
    | (day, _ :: time) => isDay day && isZonedTime time
    | _ => false

/-- Reads a scalar. -/
def Scalar.read? (t : Text) : Option Scalar :=
  if t = "true".toList then some (.bool true)
  else if t = "false".toList then some (.bool false)
  else
    match int? t with
    | some n => some (.int n)
    | none => if isFloat t then some (.float t) else if isDate t then some (.date t) else none

end Reprint.Toml
