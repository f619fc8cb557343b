import Reprint.Error
import Reprint.Layout.Split
import Reprint.Units
/-!
The blanks and comments around base nodes. The gaps between a node, its siblings and the bounds of its parent
are each divided once, so that neighbours never claim the same text. Only nodes with a span that is not
transparent count as siblings.
-/

namespace Reprint

/-- The text around a node. -/
structure Layout where
  leading : Text := []
  trailing : Text := []
deriving DecidableEq

namespace Layout

/-- The text between two offsets of a source. -/
def gap (source : Source) (start stop : Nat) : Except RegenError Text :=
  match source.gap start stop with
  | .ok t => .ok t
  | .error e => .error (.outOfBounds e)

/-- The children from which layout may be measured. -/
def anchors (parent : Node) : List Node := parent.children.filter (·.layoutSpan.isSome)

/-- What leads a node, given the sibling on its left. -/
def leadingOf (source : Source) (parent : Node) (bounds : Span) (left : Option Node) (n : Node) (s : Span) :
    Except RegenError Text :=
  match left with
  | some l => do
    let t ← gap source ((l.span.map (·.stop)).getD bounds.start) s.start
    return (Gap.splitBetween t { parent, left := l, right := n }).2
  | none => do
    let t ← gap source bounds.start s.start
    return (Gap.splitLeading parent t).2

/-- What trails a node, given the sibling on its right. -/
def trailingOf (source : Source) (parent : Node) (bounds : Span) (right : Option Node) (n : Node) (s : Span) :
    Except RegenError Text :=
  match right with
  | some r => do
    let t ← gap source s.stop ((r.span.map (·.start)).getD bounds.stop)
    return (Gap.splitBetween t { parent, left := n, right := r }).1
  | none => do
    let t ← gap source s.stop bounds.stop
    return (Gap.splitTrailing t).1

/-- The text around a node that stands among the children of a parent. -/
def within (source : Source) (parent : Node) (bounds : Span) (n : Node) (s : Span) : Except RegenError Layout :=
  let siblings := anchors parent
  match siblings.findIdx? (·.same n) with
  | none => .ok {}
  | some i => do
    let left := if i = 0 then none else siblings[i - 1]?
    let leading ← leadingOf source parent bounds left n s
    let trailing ← trailingOf source parent bounds siblings[i + 1]? n s
    return { leading, trailing }

/-- The text around a base node. Around a node without a parent to measure from, it is the rest of the
file. -/
def around (u : Units) (n : Node) : Except RegenError Layout :=
  match n.layoutSpan with
  | none => .ok {}
  | some s =>
    match u.source? s.file with
    | none => .error (.missingSource s.file)
    | some source =>
      match (u.parent? n).bind fun p => p.layoutSpan.map fun bounds => (p, bounds) with
      | some (parent, bounds) => within source parent bounds n s
      | none => do
        let leading ← gap source 0 s.start
        let trailing ← gap source s.stop source.size
        return { leading, trailing }

/-- The text of a parent before its first child and behind its last one, if it has any to measure from. -/
def affixes? (source : Source) (parent : Node) : Except RegenError (Option Layout) :=
  let spans := parent.children.filterMap (·.layoutSpan)
  match parent.layoutSpan, spans.head?, spans.getLast? with
  | some bounds, some first, some last => do
    let leading ← gap source bounds.start first.start
    let trailing ← gap source last.stop bounds.stop
    return some { leading := (Gap.splitLeading parent leading).1, trailing := (Gap.splitTrailing trailing).2 }
  | _, _, _ => .ok none

end Layout

end Reprint
