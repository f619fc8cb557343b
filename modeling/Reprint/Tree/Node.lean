import Reprint.Tree.Kind
/-!
Nodes of syntax trees. Every node has an identity, so that a node which a transformation has left alone can
be told from one that was built again and merely looks the same.
-/

namespace Reprint

/-- Which token of its owner a derived node stands for. -/
inductive Part where
  | modifier (index : Nat)
  | name
  | rename
  | superCall
deriving DecidableEq

/-- The identity of a node. Built nodes are numbered; a derived node is a part of its owner. -/
inductive Identity where
  | built (serial : Nat)
  | part (owner : Identity) (p : Part)
deriving DecidableEq

/-- A node of a syntax tree. Nodes without a span are synthesized: they stand in no text. -/
inductive Node where
  | mk (identity : Identity) (span : Option Span) (kind : Kind Node)

namespace Kind

/-- What hangs below a layer is smaller than the layer. -/
theorem sizeOf_lt_of_mem_slots {k : Kind Node} {n : Node} (h : n ∈ k.slots) : sizeOf n < sizeOf k := by
  have hlist : ∀ {l : List Node}, n ∈ l → sizeOf n < sizeOf l := List.sizeOf_lt_of_mem
  have hopt : ∀ {o : Option Node}, n ∈ o.toList → sizeOf n < sizeOf o := by
    intro o ho
    cases o with
    | none => simp at ho
    | some m => simp only [Option.toList_some, List.mem_singleton] at ho; subst ho; simp
  have hlists : ∀ {ls : List (List Node)}, n ∈ ls.flatten → sizeOf n < sizeOf ls := by
    intro ls hn
    obtain ⟨l, hl, hn⟩ := List.mem_flatten.mp hn
    exact Nat.lt_trans (List.sizeOf_lt_of_mem hn) (List.sizeOf_lt_of_mem hl)
  cases k <;> simp only [slots, List.mem_cons, List.mem_append, List.not_mem_nil, or_false, List.cons_append] at h <;>
    simp <;> grind

/-- The weight of a layer by itself. A derived layer weighs less than the one it is derived from. -/
def rank (k : Kind Node) : Nat := if k.tag.isDerived then 1 else 2

end Kind

namespace Node

/-- Who a node is. -/
def identity : Node → Identity
  | mk i _ _ => i

/-- Where a node stands. -/
def span : Node → Option Span
  | mk _ s _ => s

/-- What a node is. -/
def kind : Node → Kind Node
  | mk _ _ k => k

/-- The tag of a node. -/
def tag (n : Node) : Tag := n.kind.tag

/-- The name of a named node. -/
def name? (n : Node) : Option String := n.kind.name?

/-- The modifiers of a definition. -/
def modifiers (n : Node) : List ModifierToken := n.kind.modifiers

/-- Whether a definition carries a modifier, written or not. -/
def hasModifier (n : Node) (m : Modifier) : Bool := n.modifiers.any (·.flag == m)

/-- Where a node stands, if layout may be measured from it. -/
def layoutSpan (n : Node) : Option Span := n.span.filter (!·.transparent)

/-- Whether a node defines a name. -/
def isDefinition (n : Node) : Bool := n.tag.isDefinition

/-- Whether the children of a node are a plain sequence of statements. -/
def isSequence (n : Node) : Bool := n.tag.isSequence

/-- The very same node. -/
def same (a b : Node) : Bool := a.identity == b.identity

/-- A node as messages show it: `val(x)[4..9]`. -/
def describe (n : Node) : String :=
  let name := match n.name? with
    | some s => s!"({s})"
    | none => ""
  let place := match n.span with
    | some s => s.render
    | none => "[synthetic]"
  n.tag.name ++ name ++ place

/-- The weight of a tree: every layer counts its rank. It bounds every walk, since children weigh less than
their owner, derived ones included. -/
def weight : Node → Nat
  -- The zero is written out, so that the sum does not depend on the instances that are imported.
  | mk _ _ k => k.rank + @List.sum Nat _ Zero.ofOfNat0 (k.slots.attach.map fun ⟨n, _⟩ => n.weight)
decreasing_by
  have := Kind.sizeOf_lt_of_mem_slots ‹_›
  simp only [mk.sizeOf_spec]
  omega

theorem weight_eq (n : Node) : n.weight = n.kind.rank + @List.sum Nat _ Zero.ofOfNat0 (n.kind.slots.map weight) := by
  cases n with
  | mk i s k =>
    rw [weight]
    congr 2
    exact List.attach_map_val (f := weight)

end Node

end Reprint
