import Reprint.Source
import Reprint.Tree.Compare
import Reprint.Tree.Walk
/-!
Compilation units and the search in them. An edited node that has kept its place is paired with the base
node of the same tag at that place. Searches go only below nodes whose range includes the place in
question, or which have none.
-/

namespace Reprint

namespace Node

/-- The nodes with the range of `q`, parents before children. -/
def atRange (q : Span) (n : Node) : List Node :=
  let below := n.children.attach.flatMap fun ⟨c, _⟩ => atRange q c
  match n.span with
  | some s => (if s.sameRange q then [n] else []) ++ (if s.includes q then below else [])
  | none => below
termination_by n.weight
decreasing_by exact weight_lt_of_mem_children ‹_›

/-- The node that has `target`, which stands at `q`, among its children. -/
def parentOf? (target : Node) (q : Span) (n : Node) : Option Node :=
  if n.span.any (!·.includes q) then none
  else if n.children.any (·.same target) then some n
  else n.children.attach.findSome? fun ⟨c, _⟩ => parentOf? target q c
termination_by n.weight
decreasing_by exact weight_lt_of_mem_children ‹_›

end Node

/-- A file as it was parsed. -/
structure CompilationUnit where
  source : Source
  root : Node

/-- The known compilation units, one a file. -/
structure Units where
  units : List CompilationUnit := []

namespace Units

/-- How many files are known. -/
def size (u : Units) : Nat := u.units.length

/-- Adds a unit in place of an earlier one for its file. -/
def insert (u : Units) (c : CompilationUnit) : Units :=
  { units := c :: u.units.filter (·.source.name != c.source.name) }

/-- A single unit. -/
def single (c : CompilationUnit) : Units := { units := [c] }

/-- The unit of a file. -/
def get? (u : Units) (file : String) : Option CompilationUnit := u.units.find? (·.source.name == file)

/-- The base tree of a file. -/
def tree? (u : Units) (file : String) : Option Node := (u.get? file).map (·.root)

/-- The text of a file. -/
def source? (u : Units) (file : String) : Option Source := (u.get? file).map (·.source)

/-- The base node with the tag and the range of a node. Of several the last one is taken, which is the most
deeply nested. -/
def counterpart? (u : Units) (n : Node) : Option Node := do
  let q ← n.span
  let root ← u.tree? q.file
  (root.atRange q).reverse.find? (·.tag == n.tag)

/-- The base node that has a given base node among its children. -/
def parent? (u : Units) (n : Node) : Option Node := do
  let q ← n.span
  let root ← u.tree? q.file
  Node.parentOf? n q root

/-- Whether a node is its own counterpart. -/
def isUntouched (u : Units) (n : Node) : Bool := (u.counterpart? n).any n.same

/-- Whether a node differs in content from its counterpart. One without a counterpart does. -/
def isAltered (u : Units) (n : Node) : Bool := (u.counterpart? n).all n.contentDiffers

end Units

end Reprint
