import Reprint.Layout.Comment
/-!
Finding comments as a scanner does it. It reads the bytes of a text from left to right, counts how many block comments
are open, and notes where the comments are.
-/

namespace Reprint

/-- The bytes of a text. -/
def Text.bytes (t : Text) : List UInt8 := t.flatMap String.utf8EncodeChar

namespace Gap

@[match_pattern] def slash : UInt8 := 0x2f

@[match_pattern] def star : UInt8 := 0x2a

/-- What a scanner reads: code, or a block comment that began at an offset, with some comments open. -/
inductive Mode where
  | code
  | block (start depth : Nat)

/-- A scanner at an offset, with the bytes from there on and the comments found. -/
structure Scanner where
  offset : Nat
  ahead : List UInt8
  mode : Mode
  found : List (Nat × Nat)

namespace Scanner

/-- One step of a scanner. There is none if it would close a comment that is not open. -/
def step (s : Scanner) : Option Scanner :=
  match s.mode, s.ahead with
  | .code, slash :: slash :: bs =>
    let stop := s.offset + ((slash :: slash :: bs).takeWhile (· != 0x0a)).length
    some ⟨stop, (slash :: slash :: bs).dropWhile (· != 0x0a), .code, s.found ++ [(s.offset, stop)]⟩
  | .code, slash :: star :: _ => some { s with mode := .block s.offset 0 }
  | .code, _ :: bs => some { s with offset := s.offset + 1, ahead := bs }
  | .code, [] => some s
  | .block start depth, slash :: star :: bs =>
    some { s with offset := s.offset + 2, ahead := bs, mode := .block start (depth + 1) }
  | .block _ 0, star :: slash :: _ => none
  | .block start 1, star :: slash :: bs => some ⟨s.offset + 2, bs, .code, s.found ++ [(start, s.offset + 2)]⟩
  | .block start (depth + 2), star :: slash :: bs =>
    some { s with offset := s.offset + 2, ahead := bs, mode := .block start (depth + 1) }
  | .block _ _, _ :: bs => some { s with offset := s.offset + 1, ahead := bs }
  | .block start _, [] => some { s with mode := .code, found := s.found ++ [(start, s.offset)] }

/-- Some steps of a scanner. -/
def run : Nat → Scanner → Option Scanner
  | 0, s => some s
  | n + 1, s => s.step.bind (run n)

end Scanner

end Gap

end Reprint
