import Reprint.Document.Error
/-!
Why a tree cannot be printed again.
-/

namespace Reprint

/-- A fault that ends the printing of a tree. -/
inductive RegenError where
  /-- The root of the edited tree has no counterpart. -/
  | noCounterpart
  /-- No text is known for a file. -/
  | missingSource (file : String)
  | outOfBounds (range : OutOfBounds)
deriving DecidableEq

namespace RegenError

/-- A fault in words. -/
def message : RegenError → String
  | noCounterpart => "Edited root has no counterpart in the original tree"
  | missingSource file => "No source buffer registered for file " ++ file
  | outOfBounds range => range.message

end RegenError

end Reprint
