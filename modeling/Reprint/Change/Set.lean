import Reprint.Tree.Node
/-!
Sets of nodes by identity, in the order in which the nodes came in.
-/

namespace Reprint

/-- A set of nodes. -/
structure NodeSet where
  nodes : List Node := []

namespace NodeSet

/-- Whether a node is in the set. -/
def contains (s : NodeSet) (n : Node) : Bool := s.nodes.any (·.same n)

/-- Adds a node at the end, unless it is there already. -/
def insert (s : NodeSet) (n : Node) : NodeSet :=
  if s.contains n then s else { nodes := s.nodes ++ [n] }

/-- The set of the nodes of a list. -/
def ofList (l : List Node) : NodeSet := l.foldl insert {}

/-- How many nodes there are. -/
def size (s : NodeSet) : Nat := s.nodes.length

/-- Whether there are none. -/
def isEmpty (s : NodeSet) : Bool := s.nodes.isEmpty

end NodeSet

end Reprint
