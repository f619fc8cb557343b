import Reprint.Text.Basic
/-!
Edits: ranges of a text and what replaces them. Edits are applied from the end of the text to its start, so
that offsets stay valid.
-/

namespace Reprint

/-- The replacement of a range. -/
structure Edit where
  start : Nat
  stop : Nat
  replacement : Text
  message : String := ""

/-- Why edits cannot be applied. -/
inductive EditError where
  | overlapping (offset : Nat)
  | outOfBounds (start stop size : Nat)
deriving DecidableEq

/-- A fault in words. -/
def EditError.message : EditError → String
  | overlapping offset => s!"Overlapping edits detected at offset {offset}"
  | outOfBounds start stop size => s!"Edit span {start}..{stop} out of bounds for source length {size}"

namespace Edit

/-- Whether an edit has a range of the text. -/
def fits (t : Text) (e : Edit) : Bool := e.start ≤ e.stop && t.isBoundary e.start && t.isBoundary e.stop

/-- Checks edits with decreasing starts, none of which may reach beyond `limit`. -/
def check (t : Text) : Option Nat → List Edit → Except EditError Unit
  | _, [] => .ok ()
  | limit, e :: es =>
    if !e.fits t then .error (.outOfBounds e.start e.stop t.size)
    else if limit.any (· < e.stop) then .error (.overlapping e.start)
    else check t (some e.start) es

/-- Replaces the range of one edit. -/
def replace (t : Text) (e : Edit) : Text := t.before e.start ++ e.replacement ++ t.after e.stop

/-- Edits from the last start to the first. -/
def fromEnd (es : List Edit) : List Edit := es.mergeSort fun a b => b.start ≤ a.start

/-- Applies edits to a text. -/
def applyAll (t : Text) (es : List Edit) : Except EditError Text := do
  let es := fromEnd es
  check t none es
  return es.foldl replace t

end Edit

end Reprint
