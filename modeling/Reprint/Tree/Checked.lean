import Reprint.Tree.Walk
/-!
Trees with assertions. Where assertions are on, a range is made only if its ends are in order. Documents have no other
ranges, but the range of a super call is put together from those of a parent and an argument, which nothing compares.
So it may be that a template has no children, and a walk that comes by such a template stops. Where assertions are
off, the walk goes on over a range with its ends out of order (`superCall`, `children`, `preorder`).

Main statement: what is found with assertions is what is found without them.
-/

namespace Reprint.Node

/-- The node of a parent that is applied to arguments, if its range can be made. -/
def superCall? (owner : Identity) (parent : Node) (args : List Node) : Option Node :=
  match parent.span, args.getLast?.bind span with
  | some first, some last =>
    (Span.range? first.file first.start last.stop).map fun s =>
      mk (.part owner .superCall) (some s) (.superCall parent args)
  | _, _ => some (mk (.part owner .superCall) none (.superCall parent args))

/-- The children of a node, if the call of its super constructor can be made. -/
def children? (n : Node) : Option (List Node) :=
  match n.kind with
  | .template (first :: _) args _ _ =>
    if args.isEmpty then some n.children else (superCall? n.identity first args).map fun _ => n.children
  | _ => some n.children

/-- Assertions do not change what the call is. -/
theorem superCall?_eq_some {owner : Identity} {parent call : Node} {args : List Node}
    (h : superCall? owner parent args = some call) : call = superCall owner parent args := by
  unfold superCall? at h
  split at h
  · next first last hfirst hlast =>
    obtain ⟨l, hl, hlast⟩ := Option.bind_eq_some_iff.mp hlast
    obtain ⟨s, hs, rfl⟩ := Option.map_eq_some_iff.mp h
    unfold Span.range? at hs
    split at hs
    · cases hs
      simp [superCall, hfirst, hl, hlast]
    · cases hs
  · next hnone =>
    cases h
    unfold superCall
    congr 1
    cases hfirst : parent.span with
    | none => rfl
    | some first =>
      cases hl : args.getLast? with
      | none => rfl
      | some l =>
        cases hlast : l.span with
        | none => simp [hlast]
        | some last => exact absurd (by simp [hl, hlast]) (hnone first last hfirst)

/-- Assertions do not change what the children are. -/
theorem children?_eq_some {n : Node} {cs : List Node} (h : n.children? = some cs) : cs = n.children := by
  unfold children? at h
  split at h
  · split at h
    · exact (Option.some.inj h).symm
    · obtain ⟨_, -, h⟩ := Option.map_eq_some_iff.mp h
      exact h.symm
  · exact (Option.some.inj h).symm

/-- The nodes of a tree, parents before children, if the children of all of them can be made. -/
def preorder? (n : Node) : Option (List Node) :=
  match _h : n.children? with
  | some cs => (cs.attach.mapM fun c => preorder? c.1).map fun ls => n :: ls.flatten
  | none => none
termination_by n.weight
decreasing_by exact weight_lt_of_mem_children (children?_eq_some _h ▸ c.2)

end Reprint.Node
