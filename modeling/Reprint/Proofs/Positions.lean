import Mathlib
import Reprint.Proofs.Loading
import Reprint.Tree.Checked
/-!
Positions of loaded trees. Whatever a document gives a position has one with its offsets in order, in the text and between
characters. The call of a super constructor gets its position from the first parent and the last argument, which nothing
compares, so it may end ahead of its start (`Backward`). Where assertions are on, such a call is not made and the walk
over the tree stops there (`preorder?`); where they are off, the walk goes on. Main statement: in a base tree the
backward calls are the only nodes with a position that no text can be taken from, and exactly they stop the walk.
-/

namespace Reprint

/-- A node without a position, or with one that its text can be taken from. -/
def Source.Covers (source : Source) (n : Node) : Prop :=
  ∀ s, n.span = some s → source.Frames s ∧ ∃ t, source.slice s.start s.stop = .ok t

theorem Source.Frames.exists_slice {source : Source} {s : Span} (h : source.Frames s) :
    ∃ t, source.slice s.start s.stop = .ok t :=
  Source.exists_slice_iff.mpr ⟨Nat.le_trans h.start_le h.le_stop, h.start, h.stop⟩

namespace Node

/-- The call of a super constructor whose last argument ends ahead of the parent. -/
def Backward (n : Node) : Prop :=
  ∃ parent args last s t, n.kind = .superCall parent args ∧ args.getLast? = some last ∧ parent.span = some s ∧
    last.span = some t ∧ t.stop < s.start

/-! ### Nodes that a text covers -/

section Covered
variable {source : Source} {n : Node}

theorem Framed.not_backward (h : Framed source n) : ¬ n.Backward := by
  rintro ⟨parent, args, -, -, -, hkind, -⟩
  exact h.tag (by rw [Node.tag, hkind]; rfl)

theorem Framed.covered (h : Framed source n) : source.Covers n :=
  fun _ hs => ⟨(h.span hs).1, (h.span hs).1.exists_slice⟩

/-- The text covers the call of a super constructor unless the call is backward. -/
theorem FramedCall.covered_iff (h : FramedCall source n) : source.Covers n ↔ ¬ n.Backward := by
  constructor
  · rintro hcovers ⟨parent, args, last, s, t, hkind, hlast, hs, ht, hlt⟩
    cases h with
    | @intro owner first args' hfirst hargs =>
      cases hkind
      have hspan : (superCall owner parent args).span = some (.range s.file s.start t.stop) := by
        rw [span_superCall, hs, hlast]
        simp [ht]
      have := (hcovers _ hspan).1
      exact Nat.not_le.mpr hlt (Nat.le_trans this.start_le this.le_stop)
  · intro hforward r hr
    obtain ⟨parent, args, last, s, t, hkind, hlast, hs, ht, rfl, hstart, hstop, -⟩ := h.span hr
    have hle : s.start ≤ t.stop :=
      Nat.not_lt.mp fun hlt => hforward ⟨parent, args, last, s, t, hkind, hlast, hs, ht, hlt⟩
    have hframes : source.Frames (.range s.file s.start t.stop) :=
      ⟨Nat.le_refl _, hle, hstop.stop_le, hstart.start, hstart.start, hstop.stop⟩
    exact ⟨hframes, hframes.exists_slice⟩

end Covered

/-! ### Walks with assertions -/

theorem superCall?_eq_none_iff {owner : Identity} {parent : Node} {args : List Node} :
    superCall? owner parent args = none ↔ (superCall owner parent args).Backward := by
  unfold superCall?
  split
  · next s t hs ht =>
    obtain ⟨last, hlast, ht⟩ := Option.bind_eq_some_iff.mp ht
    rw [Option.map_eq_none_iff, Span.range?]
    constructor
    · intro h
      have hlt : t.stop < s.start := Nat.not_le.mp fun hle => by simp [hle] at h
      exact ⟨parent, args, last, s, t, rfl, hlast, hs, ht, hlt⟩
    · rintro ⟨_, _, last', s', t', ⟨⟩, hlast', hs', ht', hlt⟩
      cases hs.symm.trans hs'
      cases hlast.symm.trans hlast'
      cases ht.symm.trans ht'
      exact if_neg (Nat.not_le.mpr hlt)
  · next hnone =>
    refine ⟨nofun, ?_⟩
    rintro ⟨_, _, last, s, t, ⟨⟩, hlast, hs, ht, -⟩
    exact absurd (by simp [hlast, ht]) (hnone s t hs)

/-- Children cannot be made exactly if one of them would be the call of a super constructor that ends ahead of its start. -/
theorem children?_eq_none_iff {n : Node} : n.children? = none ↔
    ∃ first rest args self body, n.kind = .template (first :: rest) args self body ∧ args ≠ [] ∧
      (superCall n.identity first args).Backward := by
  unfold children?
  split
  · next first rest args self body hkind =>
    split
    · next hargs =>
      refine ⟨nofun, ?_⟩
      rintro ⟨_, _, _, _, _, hkind', hne, -⟩
      cases hkind.symm.trans hkind'
      exact absurd (List.isEmpty_iff.mp hargs) hne
    · next hargs =>
      rw [Option.map_eq_none_iff, superCall?_eq_none_iff]
      constructor
      · exact fun h => ⟨first, rest, args, self, body, hkind, fun hnil => hargs (List.isEmpty_iff.mpr hnil), h⟩
      · rintro ⟨_, _, _, _, _, hkind', -, h⟩
        cases hkind.symm.trans hkind'
        exact h
  · next hother =>
    refine ⟨nofun, ?_⟩
    rintro ⟨first, rest, args, self, body, hkind, -⟩
    exact absurd hkind (hother first rest args self body)

theorem preorder?_eq (n : Node) :
    n.preorder? = n.children?.bind fun cs => (cs.mapM preorder?).map fun ls => n :: ls.flatten := by
  rw [preorder?]
  split
  · next cs hcs =>
    rw [hcs, Option.bind_some]
    simp only [List.mapM_subtype, List.unattach_attach]
  · next hnone => rw [hnone, Option.bind_none]

theorem mapM_eq_some_iff {α β : Type} {f : α → Option β} {g : α → β} {P : α → Prop} {l : List α}
    (h : ∀ a ∈ l, ∀ b, f a = some b ↔ b = g a ∧ P a) (bs : List β) :
    l.mapM f = some bs ↔ bs = l.map g ∧ ∀ a ∈ l, P a := by
  induction l generalizing bs with
  | nil => simp [eq_comm]
  | cons a l ih =>
    rw [List.forall_mem_cons] at h
    simp only [List.mapM_cons, Option.bind_eq_bind, Option.bind_eq_some_iff, h.1, ih h.2, Option.pure_def,
      Option.some.injEq, List.map_cons, List.forall_mem_cons]
    constructor
    · rintro ⟨_, ⟨rfl, ha⟩, _, ⟨rfl, hl⟩, rfl⟩
      exact ⟨rfl, ha, hl⟩
    · rintro ⟨rfl, ha, hl⟩
      exact ⟨_, ⟨rfl, ha⟩, _, ⟨rfl, hl⟩, rfl⟩

/-- A walk with assertions meets what one without them meets, and it ends if all children can be made. -/
theorem preorder?_eq_some_iff {n : Node} {l : List Node} :
    n.preorder? = some l ↔ l = n.preorder ∧ ∀ m ∈ n.preorder, m.children?.isSome := by
  induction n using children_induction generalizing l with
  | step n ih =>
    have hlists := mapM_eq_some_iff fun c hc _ => ih c hc
    rw [preorder?_eq, preorder_eq]
    constructor
    · intro h
      obtain ⟨cs, hcs, h⟩ := Option.bind_eq_some_iff.mp h
      obtain rfl := children?_eq_some hcs
      obtain ⟨ls, hls, rfl⟩ := Option.map_eq_some_iff.mp h
      obtain ⟨rfl, hall⟩ := (hlists ls).mp hls
      refine ⟨by rw [List.flatMap_def], List.forall_mem_cons.mpr ⟨by rw [hcs]; rfl, fun m hm => ?_⟩⟩
      obtain ⟨c, hc, hm⟩ := List.mem_flatMap.mp hm
      exact hall c hc m hm
    · rintro ⟨rfl, hall⟩
      rw [List.forall_mem_cons] at hall
      obtain ⟨cs, hcs⟩ := Option.isSome_iff_exists.mp hall.1
      obtain rfl := children?_eq_some hcs
      have hls := (hlists _).mpr ⟨rfl, fun c hc m hm => hall.2 m (List.mem_flatMap.mpr ⟨c, hc, hm⟩)⟩
      rw [hcs, Option.bind_some, hls, Option.map_some, List.flatMap_def]

section Walk
variable {source : Source} {n c : Node}

theorem superCall_mem_children {i : Identity} {span : Option Span} {first : Node} {rest args body : List Node}
    {self : Option Node} (h : args ≠ []) :
    superCall i first args ∈ (mk i span (.template (first :: rest) args self body)).children := by
  have hzone : superCall i first args ∈ inTextOrder (parentZone i (first :: rest) args) := by
    rw [mem_inTextOrder, parentZone, if_neg (by simpa using h)]
    exact List.mem_cons_self ..
  rw [children, zones, List.mem_flatMap]
  exact ⟨_, by simp, hzone⟩

/-- The children of a framed node can be made unless one of them is backward. -/
theorem Framed.children?_isSome_iff (h : Framed source n) : n.children?.isSome ↔ ∀ c ∈ n.children, ¬ c.Backward := by
  rw [← Option.ne_none_iff_isSome, ne_eq, children?_eq_none_iff]
  constructor
  · intro hnone c hc hbackward
    rcases child_cases hc with hslot | htoken | ⟨first, rest, args, self, body, hkind, rfl⟩
    · cases h with
      | intro _ _ _ hslots => exact (hslots c hslot).not_backward hbackward
    · exact (h.child hc).elim (·.not_backward hbackward) fun hcall => by
        cases hcall with
        | intro _ _ => cases (isToken_of_mem_tokens htoken).slots
    · refine hnone ⟨first, rest, args, self, body, hkind, ?_, hbackward⟩
      obtain ⟨_, _, _, _, _, ⟨⟩, hlast, -⟩ := hbackward
      rintro rfl
      cases hlast
  · rintro hforward ⟨first, rest, args, self, body, hkind, hne, hbackward⟩
    obtain ⟨i, span, k⟩ := n
    cases hkind
    exact hforward _ (superCall_mem_children hne) hbackward

theorem FramedCall.children?_isSome (h : FramedCall source n) : n.children?.isSome := by
  cases h with
  | intro _ _ => rfl

/-- A walk with assertions over a framed tree ends exactly if it meets no backward call. -/
theorem Framed.preorder?_eq_some_iff (h : Framed source n) (l : List Node) :
    n.preorder? = some l ↔ l = n.preorder ∧ ∀ m ∈ l, ¬ m.Backward := by
  rw [Node.preorder?_eq_some_iff]
  have hcases := Framed.cases (.inl h)
  refine and_congr_right fun hl => ?_
  rw [hl]
  constructor
  · intro hsome m hm
    rcases exists_parent_of_mem hm with rfl | ⟨p, hp, hm⟩
    · exact h.not_backward
    · rcases hcases p hp with hframed | hcall
      · exact hframed.children?_isSome_iff.mp (hsome p hp) m hm
      · exact (hcall.child hm).not_backward
  · intro hforward m hm
    rcases hcases m hm with hframed | hcall
    · exact hframed.children?_isSome_iff.mpr fun c hc => hforward c (mem_preorder_trans hm (mem_preorder_child hc))
    · exact hcall.children?_isSome

end Walk

end Node

namespace LoadedTree

/-- In a base tree, the nodes with a position that no text can be taken from are the calls of super constructors whose
last argument ends ahead of the parent. A walk with assertions meets all nodes if there is no such call, and it fails
otherwise. -/
theorem covered_iff_not_backward (source : Source) (text : Text) (base : LoadedTree) (h : ofBase source text = .ok base) :
    (∀ n ∈ base.root.preorder, source.Covers n ↔ ¬ n.Backward) ∧
      ∀ l, base.root.preorder? = some l ↔ l = base.root.preorder ∧ ∀ n ∈ l, source.Covers n := by
  have hframed := (ofBase_framed h).1
  have hcovers : ∀ n ∈ base.root.preorder, source.Covers n ↔ ¬ n.Backward := by
    intro n hn
    rcases Node.Framed.cases (.inl hframed) n hn with hn | hn
    · exact iff_of_true hn.covered hn.not_backward
    · exact hn.covered_iff
  refine ⟨hcovers, fun l => ?_⟩
  rw [hframed.preorder?_eq_some_iff]
  refine and_congr_right fun hl => forall₂_congr fun n hn => ?_
  rw [hcovers n (hl ▸ hn)]

/-- A text, and for it the document of a template whose parent stands behind the argument. -/
def swappedSource : Source := { name := "A.scala", text := ['b', ' ', 'a'] }

def swappedText : Text :=
  ("[\"A\",\x7b\"kind\":\"template\",\"pos\":[0,3],\"parents\":[[\"ident\",null,[2,3],false,\"a\"]]," ++
    "\"super_args\":[[\"ident\",null,[0,1],false,\"b\"]]\x7d]").toList

def swappedParent : Node := .mk (.built 0) (some (.range "A.scala" 2 3)) (.ident "a")

def swappedArgument : Node := .mk (.built 1) (some (.range "A.scala" 0 1)) (.ident "b")

def swappedTree : LoadedTree where
  root := .mk (.built 2) (some (.range "A.scala" 0 3)) (.template [swappedParent] [swappedArgument] none [])
  ids := []
  next := 3

theorem ofBase_swappedText : ofBase swappedSource swappedText = .ok swappedTree := by cbv

/-- The template is loaded. The text covers its nodes unless they are backward, and a walk with assertions that meets all of
them meets none that is not covered. -/
theorem swapped_covered_iff_not_backward : ofBase swappedSource swappedText = .ok swappedTree ∧
    (∀ n ∈ swappedTree.root.preorder, swappedSource.Covers n ↔ ¬ n.Backward) ∧
      ∀ l, swappedTree.root.preorder? = some l ↔ l = swappedTree.root.preorder ∧ ∀ n ∈ l, swappedSource.Covers n :=
  ⟨ofBase_swappedText, covered_iff_not_backward swappedSource swappedText swappedTree ofBase_swappedText⟩

/-- The walk with assertions fails at the call of the super constructor in it. Without them the call reaches from 2 to 1,
and no text can be taken from there. -/
theorem swapped_call_not_covered : ofBase swappedSource swappedText = .ok swappedTree ∧
    swappedTree.root.preorder? = none ∧
      ∃ n ∈ swappedTree.root.preorder, n.span = some (.range "A.scala" 2 1) ∧ ¬ swappedSource.Covers n := by
  refine ⟨ofBase_swappedText, ?_, .superCall (.built 2) swappedParent [swappedArgument], ?_, rfl, fun hcovers => ?_⟩
  · rw [Node.preorder?_eq]
    rfl
  · exact Node.mem_preorder_child (Node.superCall_mem_children (List.cons_ne_nil _ _))
  · have hframes := (hcovers (.range "A.scala" 2 1) rfl).1
    exact absurd (Nat.le_trans hframes.start_le hframes.le_stop) (by decide)

end LoadedTree

end Reprint
