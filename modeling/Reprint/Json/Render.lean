import Reprint.Decimal.Shortest
import Reprint.Json.Value
/-!
JSON as text, on one line or with one member a line. `sorted` is the normal form in which a value is shown
in messages: keys in order, and of members with one key the last.
-/

namespace Reprint.Json

/-- Doubles are written without an exponent from `1e-5` on; of two equally near decimals the even one is
taken. -/
def numberStyle : Decimal.Style := { least := -4, tie := .even }

/-- A number as text. -/
def Number.render : Number → Text
  | .int n => (toString n).toList
  | .double x => Decimal.render numberStyle x

/-- A character inside a string. Quotes, backslashes and controls are escaped. -/
def escape (c : Char) : Text :=
  match c with
  | '"' => ['\\', '"']
  | '\\' => ['\\', '\\']
  | '\x08' => ['\\', 'b']
  | '\x0c' => ['\\', 'f']
  | '\n' => ['\\', 'n']
  | '\r' => ['\\', 'r']
  | '\t' => ['\\', 't']
  | c =>
    if c.toNat < 0x20 then
      let digits := Nat.toDigits 16 c.toNat
      ['\\', 'u'] ++ List.replicate (4 - digits.length) '0' ++ digits
    else [c]

/-- A string between quotes. -/
def renderString (s : String) : Text := '"' :: s.toList.flatMap escape ++ ['"']

/-- Puts a member in its place among members with increasing keys, in place of one with its key. -/
def insertMember (key : String) (value : Json) : List (String × Json) → List (String × Json)
  | [] => [(key, value)]
  | (k, v) :: ms =>
    if key < k then (key, value) :: (k, v) :: ms
    else if key = k then (key, value) :: ms
    else (k, v) :: insertMember key value ms

/-- The members of every object in the order of their keys, the last of those with one key. -/
def sorted : Json → Json
  | .array items => .array (items.map sorted)
  | .object members =>
    .object ((members.map fun m => (m.1, sorted m.2)).foldl (fun ms m => insertMember m.1 m.2 ms) [])
  | v => v
decreasing_by
  · simp only [Json.array.sizeOf_spec]; have := List.sizeOf_lt_of_mem ‹_›; omega
  · simp only [Json.object.sizeOf_spec]; have := sizeOf_value_lt ‹_›; omega

/-- A value on one line. -/
def render : Json → Text
  | .null => "null".toList
  | .bool b => (toString b).toList
  | .number n => n.render
  | .string s => renderString s
  | .array items => '[' :: List.intercalate [','] (items.map render) ++ [']']
  | .object members =>
    '{' :: List.intercalate [','] (members.map fun m => renderString m.1 ++ ':' :: render m.2) ++ ['}']
decreasing_by
  · simp only [Json.array.sizeOf_spec]; have := List.sizeOf_lt_of_mem ‹_›; omega
  · simp only [Json.object.sizeOf_spec]; have := sizeOf_value_lt ‹_›; omega

/-- A line break before something `depth` brackets deep. -/
def lineBreak (depth : Nat) : Text := '\n' :: List.replicate (2 * depth) ' '

/-- A value with one item or member a line, inside `depth` brackets. -/
def renderPretty (depth : Nat) : Json → Text
  | .array [] => ['[', ']']
  | .array items =>
    let lines := items.map fun v => lineBreak (depth + 1) ++ renderPretty (depth + 1) v
    '[' :: List.intercalate [','] lines ++ lineBreak depth ++ [']']
  | .object [] => ['{', '}']
  | .object members =>
    let lines := members.map fun m =>
      lineBreak (depth + 1) ++ renderString m.1 ++ [':', ' '] ++ renderPretty (depth + 1) m.2
    '{' :: List.intercalate [','] lines ++ lineBreak depth ++ ['}']
  | v => render v
termination_by v => sizeOf v
decreasing_by
  · simp only [Json.array.sizeOf_spec]; have := List.sizeOf_lt_of_mem ‹_›; omega
  · simp only [Json.object.sizeOf_spec]; have := sizeOf_value_lt ‹_›; omega

end Reprint.Json
