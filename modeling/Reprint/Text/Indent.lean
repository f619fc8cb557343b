import Reprint.Text.Blank
/-!
Indentation: the spaces and tabs that a line begins with. Text that moves under another enclosing
construct has the indentation of its later lines exchanged.
-/

namespace Reprint.Text

/-- Whether a character can be part of an indentation. -/
def isIndent (c : Char) : Bool := c == ' ' || c == '\t'

/-- The indentation of the line that holds an offset. An offset inside a character counts as that
character's start. -/
def indentationAt (t : Text) (offset : Nat) : Text :=
  ((t.before offset).lastLine ++ t.after offset).takeWhile isIndent

/-- A line with the indentation `old` exchanged for `new`. Blank lines and lines that do not begin with
`old` stay as they are. -/
def reindentLine (line old new : Text) : Text :=
  if line.allBlank then line
  else if old.isPrefixOf line then new ++ line.drop old.length
  else line

/-- Exchanges the indentation of every line but the first. -/
def reindent (t old new : Text) : Text :=
  match t.lines with
  | [] => []
  | first :: rest => first ++ rest.flatMap fun line => '\n' :: reindentLine line old new

/-- Indents every line but the first. -/
def indentLines (t indent : Text) : Text := t.reindent [] indent

end Reprint.Text
