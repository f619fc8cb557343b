import Reprint.Span
import Reprint.Text.Indent
/-!
Sources: the text of one file. Slices are checked against the text; offsets are given as lines and columns.
-/

namespace Reprint

/-- A range that does not fit a text. -/
structure OutOfBounds where
  start : Nat
  stop : Nat
  size : Nat
deriving DecidableEq

/-- The text of one file. -/
structure Source where
  name : String
  text : Text

namespace Source

/-- The length of the text in bytes. -/
def size (s : Source) : Nat := s.text.size

/-- The text between two offsets, which must be in order, in bounds and between characters. -/
def slice (s : Source) (start stop : Nat) : Except OutOfBounds Text :=
  match s.text.slice? start stop with
  | some t => .ok t
  | none => .error { start, stop, size := s.size }

/-- The text between two offsets, empty when they are not in order. -/
def gap (s : Source) (start stop : Nat) : Except OutOfBounds Text :=
  if start < stop then s.slice start stop else .ok []

end Source

namespace Text

/-- The line and the column after one more character. -/
def advance (place : Nat × Nat) (c : Char) : Nat × Nat :=
  if c = '\n' then (place.1 + 1, 1) else (place.1, place.2 + 1)

/-- The place reached from `place` over the characters that start before an offset. -/
def lineColumnFrom (place : Nat × Nat) : Text → Nat → Nat × Nat
  | [], _ => place
  | c :: t, n => if n = 0 then place else lineColumnFrom (advance place c) t (n - c.utf8Size)

/-- The line and the column of an offset. Both count from one, and a column counts characters. -/
def lineColumn (t : Text) (offset : Nat) : Nat × Nat := lineColumnFrom (1, 1) t offset

end Text

end Reprint
