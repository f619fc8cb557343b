import Reprint.Tree.Children
/-!
Walks over a tree, parents before children. A visitor sees the nodes one after the other; it says below
which nodes the walk goes on and when it ends.
-/

namespace Reprint

/-- The nodes of a tree, parents before children. -/
def Node.preorder (n : Node) : List Node :=
  n :: n.children.attach.flatMap fun ⟨c, _⟩ => c.preorder
termination_by n.weight
decreasing_by exact Node.weight_lt_of_mem_children ‹_›

/-- The node reached by going to the child with each index of a path in turn. -/
def Node.at? (n : Node) : List Nat → Option Node
  | [] => some n
  | i :: path => do (← n.children[i]?).at? path

/-- An observer of a walk with a state of its own. -/
structure Visitor (σ : Type) where
  /-- Sees a node, and tells whether to go on below it. -/
  visit : Node → σ → Bool × σ
  /-- Whether the walk is over. -/
  done : σ → Bool

namespace Visitor

variable {σ : Type}

/-- Walks over a tree. -/
def walk (v : Visitor σ) (n : Node) (s : σ) : σ :=
  if v.done s then s
  else
    match v.visit n s with
    | (false, s) => s
    | (true, s) => n.children.attach.foldl (fun s ⟨c, _⟩ => v.walk c s) s
termination_by n.weight
decreasing_by exact Node.weight_lt_of_mem_children ‹_›

/-- Collects the nodes it sees, the last one first. It does not go below nodes with the tag `skip` and ends
at a node with the tag `stop`. -/
def collector (skip stop : Option Tag) : Visitor (List Node) where
  visit n seen := (some n.tag != skip, n :: seen)
  done seen := match seen with
    | last :: _ => some last.tag == stop
    | [] => false

end Visitor

end Reprint
