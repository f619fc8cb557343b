import Reprint.Json.Value
import Reprint.Style
/-!
Reading a style from JSON: an object with the keys `indent` and `line_ending`, or an array of the two values
in that order. Both may be left out.
-/

namespace Reprint

/-- Reads `"tabs"` or a number of spaces under the key `spaces`. -/
def IndentStyle.ofJson? : Json → Option IndentStyle
  | .string "tabs" => some .tabs
  | .object [("tabs", .null)] => some .tabs
  | .object [("spaces", .number (.int n))] => if 0 ≤ n then some (.spaces n.toNat) else none
  | _ => none

/-- Reads `"lf"` or `"crlf"`, possibly as a key with null under it. -/
def LineEnding.ofJson? : Json → Option LineEnding
  | .string "lf" | .object [("lf", .null)] => some .lf
  | .string "crlf" | .object [("crlf", .null)] => some .crlf
  | _ => none

namespace Style

/-- What brackets may still be nested inside the style's own. -/
def innerDepth : Nat := Json.maxDepth - 1

/-- Reads a value that may be left out. -/
def item? {α : Type} (read : Json → Option α) (default : α) : Option Json.Raw → Option α
  | none => some default
  | some raw => do read (← raw.value? innerDepth)

/-- The written values of the two settings. Other keys are passed over. -/
def parts? : Json.Raw → Option (Option Json.Raw × Option Json.Raw)
  | .array items => if items.length ≤ 2 then some (items[0]?, items[1]?) else none
  | .object members => do
    let ms ← members.mapM fun (m : List Json.Piece × Json.Raw) => do return (← Json.decodeString m.1, m.2)
    let atMostOne (key : String) : Option (Option Json.Raw) :=
      match ms.filter (·.1 == key) with
      | [] => some none
      | [m] => some (some m.2)
      | _ => none
    return (← atMostOne "indent", ← atMostOne "line_ending")
  | _ => none

/-- Reads a style. -/
def read? (t : Text) : Option Style := do
  let (indent, lineEnding) ← parts? (← Json.Raw.read? t)
  let default : Style := {}
  return { indent := ← item? IndentStyle.ofJson? default.indent indent,
           lineEnding := ← item? LineEnding.ofJson? default.lineEnding lineEnding }

end Style

end Reprint
