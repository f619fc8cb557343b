import Reprint.Style
/-!
Printed code before its style is chosen: pieces of text, and line breaks that know how deep the next line is.
A style turns the line breaks into line endings with indentation.
-/

namespace Reprint

/-- A piece of printed code. -/
inductive Piece where
  | text (t : Text)
  /-- A line break before a line at some depth. -/
  | line (depth : Nat)
  /-- A line break before an empty line. -/
  | emptyLine
deriving DecidableEq

/-- Printed code, piece by piece. -/
abbrev Doc := List Piece

namespace Piece

/-- A piece one level deeper. -/
def nest : Piece → Piece
  | line depth => line (depth + 1)
  | p => p

/-- A piece in a style. -/
def render (style : Style) : Piece → Text
  | text t => t
  | line depth => style.lineEnding.text ++ style.indent.atDepth depth
  | emptyLine => style.lineEnding.text

end Piece

namespace Doc

/-- Code on one line. -/
def text (s : String) : Doc := [.text s.toList]

/-- Code one level deeper. -/
def nest (d : Doc) : Doc := d.map Piece.nest

/-- Code on a line of its own, one level deeper. -/
def nestedLine (d : Doc) : Doc := .line 1 :: nest d

/-- Pieces of code with a separator between them. -/
def join (separator : String) (ds : List Doc) : Doc := List.intercalate (text separator) ds

/-- Code behind a mark, if there is any. -/
def optional (mark : String) : Option Doc → Doc
  | some d => text mark ++ d
  | none => []

/-- Code in a style. -/
def render (style : Style) (d : Doc) : Text := d.flatMap (Piece.render style)

end Doc

end Reprint
