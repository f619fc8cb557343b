import Reprint.Change.Set
import Reprint.Units
/-!
Regions: the parts of a base text that have to be printed again. The edited tree is compared with its
counterpart from the root down. Untouched subtrees are passed over, a node with new content or new children
makes a region, and one new statement in a sequence makes a region of its own.
-/

namespace Reprint

/-- A part of the base text and the edited node that goes there. -/
structure Region where
  /-- The highest edited node of the region. -/
  top : Node
  /-- What it replaces. -/
  range : Span
  /-- The nodes that count as changed. -/
  changed : NodeSet

namespace Node

/-- Whether the children of two nodes differ in number, or some pair of them in its slot. -/
def childrenChanged (edited base : Node) : Bool :=
  edited.children.length != base.children.length ||
    (edited.children.zip base.children).any fun (a, b) => !a.sameSlot b

/-- The indices at which the children of two nodes differ in their slots. -/
def differing (edited base : Node) : List Nat :=
  (edited.children.zip base.children).zipIdx.filterMap fun ((a, b), i) => if a.sameSlot b then none else some i

/-- The one statement of a sequence that was replaced by a synthesized one: its index, the new node, and
the place of the old one. -/
def replaced? (edited base : Node) : Option (Nat × Node × Span) := do
  guard (edited.isSequence && edited.children.length == base.children.length)
  match edited.differing base with
  | [i] =>
    let new ← edited.children[i]?
    guard new.span.isNone
    return (i, new, ← (← base.children[i]?).span)
  | _ => none

/-- The nodes below and including `n` that count as changed: those without a counterpart, and those with
other content or other children. Nothing is looked for below an untouched node. -/
def changedNodes (u : Units) (n : Node) : List Node :=
  let below := n.children.attach.flatMap fun ⟨c, _⟩ => changedNodes u c
  match u.counterpart? n with
  | none => n :: below
  | some base =>
    if n.same base then []
    else if n.contentDiffers base || n.childrenChanged base then n :: below
    else below
termination_by n.weight
decreasing_by exact weight_lt_of_mem_children ‹_›

end Node

namespace Region

/-- The region of an edited node that goes to `range`. -/
def of (u : Units) (top : Node) (range : Span) : Region :=
  { top, range, changed := NodeSet.ofList (top.changedNodes u) }

/-- The regions of an edited tree, possibly one inside the other. -/
def search (u : Units) (n : Node) : List Region :=
  let below := n.children.attach.flatMap fun ⟨c, _⟩ => search u c
  match u.counterpart? n with
  | none => []
  | some base =>
    if n.same base then []
    else
      match base.span with
      | none => []
      | some range =>
        if n.contentDiffers base then of u n range :: below
        else if n.childrenChanged base then
          match n.replaced? base with
          | some (i, new, place) =>
            of u new place :: (n.children.attach.eraseIdx i).flatMap fun ⟨c, _⟩ => search u c
          | none => [of u n range]
        else below
termination_by n.weight
decreasing_by all_goals exact Node.weight_lt_of_mem_children ‹_›

/-- Keeps the widest ranges, the first of those that cover the same offsets, in the order of their starts. -/
def widest {α : Type} (range : α → Span) (l : List α) : List α :=
  let outer := l.filter fun a => !l.any fun b => (range b).properlyIncludes (range a)
  let once := outer.eraseDupsBy fun a b => (range a).includes (range b) && (range b).includes (range a)
  once.mergeSort fun a b => (range a).start ≤ (range b).start

/-- The regions of an edited tree, none inside another, in the order of the text. -/
def find (u : Units) (root : Node) : List Region := widest range (search u root)

end Region

end Reprint
