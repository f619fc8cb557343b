import Reprint.Edit
import Reprint.Print.Reuse
/-!
Regeneration: the edits that bring a base text up to an edited tree, one for each region that changed.
-/

namespace Reprint

/-- The edits for an edited tree, and the nodes that could not be printed. -/
structure Regeneration where
  edits : List Edit
  diagnostics : List Diagnostic

namespace Printer

/-- The edit of a region. -/
def editOf (p : Printer) (r : Region) : PrintM Edit := do
  return { start := r.range.start, stop := r.range.stop, replacement := ← p.printRegion r,
           message := "Regenerate " ++ r.top.tag.name }

/-- The edits for an edited tree, which must have a counterpart. -/
def regenerate (p : Printer) (root : Node) : Except RegenError Regeneration :=
  if (p.units.counterpart? root).isNone then .error .noCounterpart
  else
    match ((Region.find p.units root).mapM p.editOf).run.run [] with
    | (.ok edits, diagnostics) => .ok { edits, diagnostics }
    | (.error e, _) => .error e

end Printer

end Reprint
