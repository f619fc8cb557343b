import Reprint.Json.Render
import Reprint.Source
import Reprint.Tree.Kind
/-!
Why a document is refused.
-/

namespace Reprint

/-- A fault of a tree document. -/
inductive DocumentError where
  /-- The text is no document: it is no JSON, or some field has the wrong form. -/
  | malformed
  | unknownKind (kind : String)
  | outOfBounds (range : OutOfBounds)
  | offsetCount (count : Nat)
  | pointOutside (point start stop : Nat)
  | insideCharacter (offset : Nat)
  | missing (tag : Tag) (field : String)
  | unsupportedLiteral (value : Json)
  | unknownReference (target : String)
  | duplicateId (id : String)

/-- A range outside a text, in words. -/
def OutOfBounds.message (r : OutOfBounds) : String :=
  s!"Position {r.start}..{r.stop} out of bounds for source length {r.size}"

namespace DocumentError

/-- What is wrong inside a document that is otherwise well-formed JSON. -/
def detail : DocumentError → String
  | offsetCount n => s!"Position needs 2 or 3 offsets, got {n}"
  | pointOutside point start stop => s!"Point {point} outside {start}..{stop}"
  | insideCharacter offset => s!"Offset {offset} is inside a character"
  | missing tag field => "Kind '" ++ tag.name ++ "' requires '" ++ field ++ "'"
  | unsupportedLiteral value => "Unsupported literal " ++ String.ofList value.render
  | unknownReference target => "Unknown node reference '" ++ target ++ "'"
  | duplicateId id => "Duplicate node id '" ++ id ++ "'"
  | _ => ""

/-- A fault in words. -/
def message : DocumentError → String
  | unknownKind kind => "Unknown node kind '" ++ kind ++ "'"
  | outOfBounds range => range.message
  | malformed => "Malformed tree document:"
  | e => "Malformed tree document: " ++ e.detail

end DocumentError

end Reprint
