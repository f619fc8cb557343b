import Reprint.Text.Blank
/-!
Comments in a gap between two tokens: from two slashes to the end of the line, or between slash-star and
star-slash, which nest. A gap is cut into segments once; where the comments are and the text with comments
masked out are both read off the segments.
-/

namespace Reprint.Gap

/-- A piece of a gap. -/
inductive Segment where
  /-- A character outside comments. -/
  | code (c : Char)
  /-- A comment that ends before a line feed. -/
  | line (t : Text)
  /-- A comment between brackets of its own. -/
  | block (t : Text)

/-- The rest of a block comment, with `depth` more comments open around it, and what follows it. A comment
that is never closed goes on to the end. -/
def closeBlock : Nat → Text → Text × Text
  | _, [] => ([], [])
  | depth, '/' :: '*' :: t =>
    let (body, rest) := closeBlock (depth + 1) t
    ('/' :: '*' :: body, rest)
  | 0, '*' :: '/' :: t => (['*', '/'], t)
  | depth + 1, '*' :: '/' :: t =>
    let (body, rest) := closeBlock depth t
    ('*' :: '/' :: body, rest)
  | depth, c :: t =>
    let (body, rest) := closeBlock depth t
    (c :: body, rest)

theorem closeBlock_append (depth : Nat) (t : Text) :
    (closeBlock depth t).1 ++ (closeBlock depth t).2 = t := by
  fun_induction closeBlock depth t <;> simp_all

theorem length_closeBlock (depth : Nat) (t : Text) : (closeBlock depth t).2.length ≤ t.length := by
  have := congrArg List.length (closeBlock_append depth t)
  rw [List.length_append] at this
  omega

/-- Whether a character stays on its line. -/
def inLine (c : Char) : Bool := c != '\n'

/-- The segments of a text. -/
def segments (t : Text) : List Segment :=
  match t with
  | [] => []
  | '/' :: '/' :: t => .line ('/' :: '/' :: t.takeWhile inLine) :: segments (t.dropWhile inLine)
  | '/' :: '*' :: t => .block ('/' :: '*' :: (closeBlock 0 t).1) :: segments (closeBlock 0 t).2
  | c :: t => .code c :: segments t
termination_by t.length
decreasing_by
  · have := (List.dropWhile_suffix inLine (l := t)).length_le
    simp only [List.length_cons]; omega
  · have := length_closeBlock 0 t
    simp only [List.length_cons]; omega
  · simp

namespace Segment

/-- A segment as it stands in the text. -/
def raw : Segment → Text
  | code c => [c]
  | line t | block t => t

/-- Whether a segment is a comment. -/
def isComment : Segment → Bool
  | code _ => false
  | line _ | block _ => true

/-- Spaces in place of a character, as many as it has bytes. Line feeds stay. -/
def blankOut (c : Char) : Text := if c = '\n' then ['\n'] else List.replicate c.utf8Size ' '

/-- A segment with the characters of a comment blanked out. -/
def masked : Segment → Text
  | code c => [c]
  | line t | block t => t.flatMap blankOut

end Segment

/-- The ranges of the comments among segments that begin at an offset. -/
def commentsFrom (start : Nat) : List Segment → List (Nat × Nat)
  | [] => []
  | s :: ss =>
    let stop := start + s.raw.size
    if s.isComment then (start, stop) :: commentsFrom stop ss else commentsFrom stop ss

/-- The ranges of the comments in a text. -/
def comments (t : Text) : List (Nat × Nat) := commentsFrom 0 (segments t)

/-- Whether a text holds a comment. -/
def hasComment (t : Text) : Bool := !(comments t).isEmpty

/-- A text with its comments blanked out. Offsets and lines stay the same. -/
def masked (t : Text) : Text := (segments t).flatMap Segment.masked

theorem segments_raw (t : Text) : (segments t).flatMap Segment.raw = t := by
  fun_induction segments t with
  | case1 => rfl
  | case2 t ih => simp [Segment.raw, ih, List.takeWhile_append_dropWhile]
  | case3 t ih => simp [Segment.raw, ih, closeBlock_append]
  | case4 c t _ _ ih => simp [Segment.raw, ih]

/-- The offset of the first character that is neither blank nor in a comment. -/
def firstCode? (t : Text) : Option Nat := (masked t).find? (!isBlank ·)

/-- The offset behind the last character that is neither blank nor in a comment. -/
def afterCode? (t : Text) : Option Nat :=
  let kept := (masked t).trimEnd
  if kept.isEmpty then none else some kept.size

/-- Whether a comment that begins at an offset is the first thing on its line. -/
def onOwnLine (t : Text) (start : Nat) : Bool :=
  let ahead := t.before start
  ahead.contains '\n' && ahead.lastLine.allBlank

/-- Moves an offset out of the comment it lies in. A comment on a line of its own stays with what follows
it, any other with what precedes it. -/
def snap (t : Text) (index : Nat) : Nat :=
  match (comments t).find? fun (start, stop) => start < index && index < stop with
  | some (start, stop) => if onOwnLine t start then start else stop
  | none => index

end Reprint.Gap
