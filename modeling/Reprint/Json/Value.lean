import Reprint.Decimal.Binary64
import Reprint.Json.Raw
/-!
JSON values. A written text has a value when its brackets are at most 127 deep, every number is in range
and every surrogate has its partner. Members of an object are kept in order, repeated keys included.
-/

namespace Reprint

namespace Json

/-- A number: an integer of at most 64 bits, or a double. -/
inductive Number where
  | int (n : Int)
  | double (x : Binary64)
deriving DecidableEq

end Json

/-- A JSON value. -/
inductive Json where
  | null
  | bool (b : Bool)
  | number (n : Json.Number)
  | string (s : String)
  | array (items : List Json)
  | object (members : List (String × Json))

namespace Json

/-- The value of a member is smaller than the list of members. -/
theorem sizeOf_value_lt {m : String × Json} {members : List (String × Json)} (h : m ∈ members) :
    sizeOf m.2 < sizeOf members := by
  have := List.sizeOf_lt_of_mem h
  obtain ⟨k, v⟩ := m
  simp only [Prod.mk.sizeOf_spec] at this
  simp only
  omega

/-! ### Numbers -/

/-- The greatest integer a written number may have without becoming a double. -/
def maxWord : Nat := 0xffffffffffffffff

/-- Takes digits into a significand while it stays within one word; also how many were taken. -/
def takeDigits (significand : Nat) : List Char → Nat × Nat
  | [] => (significand, 0)
  | c :: t =>
    let n := significand * 10 + (c.toNat - '0'.toNat)
    if n ≤ maxWord then let (s, k) := takeDigits n t; (s, k + 1) else (significand, 0)

/-- The greatest power of ten that is a double. -/
def greatestPower : Nat := 308

/-- The double nearest to a power of ten. -/
def powerOfTen? (k : Nat) : Option Binary64 := Binary64.ofRatio? false (Nat.pow 10 k) 1

/-- Divides by `10 ^ n`, in two steps if there is no such double. What is left of a word after two whole
steps is zero. -/
def shiftDown? (x : Binary64) (n : Nat) : Option Binary64 :=
  if n ≤ greatestPower then do x.div? (← powerOfTen? n)
  else if n ≤ 2 * greatestPower then do
    (← x.div? (← powerOfTen? greatestPower)).div? (← powerOfTen? (n - greatestPower))
  else Binary64.ofRatio? x.negative 0 1

/-- Multiplies by `10 ^ n`. Only zero can be multiplied by more than `10 ^ greatestPower`. -/
def shiftUp? (x : Binary64) (n : Nat) : Option Binary64 :=
  if n ≤ greatestPower then do x.mul? (← powerOfTen? n)
  else if x.isZero then some x
  else none

/-- The double `significand * 10 ^ exponent`. Significand and power are rounded before they meet. -/
def scaled? (negative : Bool) (significand : Nat) (exponent : Int) : Option Binary64 := do
  let x ← Binary64.ofRatio? negative significand 1
  if 0 ≤ exponent then shiftUp? x exponent.toNat else shiftDown? x (-exponent).toNat

/-- The number that a digit string denotes. -/
def natOfDigits (digits : List Char) : Nat :=
  digits.foldl (fun n c => n * 10 + (c.toNat - '0'.toNat)) 0

/-- An integer that fits a word; minus zero and integers below `-2 ^ 63` are doubles. -/
def ofSignificand? (negative : Bool) (n : Nat) : Option Number :=
  if negative then
    if n = 0 ∨ Nat.pow 2 63 < n then (Binary64.ofRatio? true n 1).map .double else some (.int (-n))
  else some (.int n)

/-- The value of a written number, none if it is too great for a double. -/
def Numeral.value? (num : Numeral) : Option Number :=
  let (whole, k) := takeDigits 0 num.whole
  let dropped := num.whole.length - k
  if num.part.isEmpty ∧ num.exponent.isNone ∧ dropped = 0 then ofSignificand? num.negative whole
  else
    let (significand, k) := takeDigits whole num.part
    let exponent : Int := match num.exponent with
      | none => 0
      | some (negative, digits) => if negative then -(natOfDigits digits : Int) else natOfDigits digits
    (scaled? num.negative significand (dropped - k + exponent)).map .double

/-! ### Strings -/

/-- Joins the pieces of a string. A high surrogate must be followed at once by a low one. -/
def decodePieces : List Piece → Option (List Char)
  | [] => some []
  | .char c :: ps => (decodePieces ps).map (c :: ·)
  | .unit n :: ps =>
    if 0xd800 ≤ n ∧ n < 0xdc00 then
      match ps with
      | .unit m :: ps =>
        if 0xdc00 ≤ m ∧ m < 0xe000 then
          (decodePieces ps).map (Char.ofNat (0x10000 + (n - 0xd800) * 0x400 + (m - 0xdc00)) :: ·)
        else none
      | _ => none
    else if 0xdc00 ≤ n ∧ n < 0xe000 then none
    else (decodePieces ps).map (Char.ofNat n :: ·)

/-- The string that was written, none if it holds a lone surrogate. -/
def decodeString (s : List Piece) : Option String := (decodePieces s).map String.ofList

/-! ### Values -/

/-- The value of a written text whose brackets are at most `depth` deep. -/
def Raw.value? : Nat → Raw → Option Json
  | _, .null => some .null
  | _, .bool b => some (.bool b)
  | _, .number n => n.value?.map .number
  | _, .string s => (decodeString s).map .string
  | 0, _ => none
  | depth + 1, .array items => (items.mapM (Raw.value? depth)).map .array
  | depth + 1, .object members =>
    (members.mapM fun (m : List Piece × Raw) => do return (← decodeString m.1, ← Raw.value? depth m.2)).map .object

/-- How deep brackets may be nested. -/
def maxDepth : Nat := 127

/-- The value of a text. -/
def read? (t : List Char) : Option Json := do (← Raw.read? t).value? maxDepth

/-- A member of an object. -/
def get? (key : String) : Json → Option Json
  | .object members => members.lookup key
  | _ => none

end Json

end Reprint
