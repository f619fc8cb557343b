/-!
Spans: where a node stands in a file. Besides its range a span has a point, the offset of the node's focus
token. A transparent span takes part in searches but never anchors layout.
-/

namespace Reprint

/-- A range of a file, in bytes, with the offset of the focus token. -/
structure Span where
  file : String
  start : Nat
  point : Nat
  stop : Nat
  transparent : Bool := false
deriving DecidableEq

namespace Span

/-- A span whose point is its start. Nothing is asked of the order of its ends. -/
def range (file : String) (start stop : Nat) : Span :=
  { file, start, point := start, stop }

/-- A span whose point is its start, with the assertion that its ends are in order. -/
def range? (file : String) (start stop : Nat) : Option Span :=
  if start ≤ stop then some (range file start stop) else none

/-- Same file, start, point and stop. Transparency does not count. -/
def sameRange (a b : Span) : Bool :=
  a.file == b.file && a.start == b.start && a.point == b.point && a.stop == b.stop

/-- `b` lies within `a`. The bounds may coincide. -/
def includes (a b : Span) : Bool :=
  a.file == b.file && a.start ≤ b.start && b.stop ≤ a.stop

/-- `b` lies within `a` and does not cover the same offsets. -/
def properlyIncludes (a b : Span) : Bool :=
  a.includes b && !(a.start == b.start && a.stop == b.stop)

/-- The two spans share at least one offset. -/
def overlaps (a b : Span) : Bool :=
  a.file == b.file && a.start < b.stop && b.start < a.stop

/-- A span as messages show it: `[4..11 @6 transparent]`. -/
def render (s : Span) : String :=
  let point := if s.point = s.start then "" else s!" @{s.point}"
  let flag := if s.transparent then " transparent" else ""
  s!"[{s.start}..{s.stop}{point}{flag}]"

end Span

end Reprint
