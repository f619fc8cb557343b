import Mathlib
import Reprint.Proofs.Surroundings
/-!
Finding the parent of a node. The search goes only below nodes whose range includes the place of the node, or which have
none, and ends at the first node with the one in question among its children. In a tree that holds each node once and
whose nodes lie within their ancestors it finds the one node that has it for a child, whatever lies between that one and
the root. The root has no parent, nor has a node that is not in the tree.
-/

namespace Reprint

namespace Node

/-- A node has another one among its children, the very same node and not one that looks like it. -/
def Holds (parent n : Node) : Prop := ∃ c ∈ parent.children, c.same n

section Single
variable {root n p : Node}

/-- In a tree that holds each node once, a child is the node whose identity it has. -/
theorem Single.mem_children_of_holds (hs : Single root) (hn : n ∈ root.preorder) (hp : p ∈ root.preorder)
    (h : p.Holds n) : n ∈ p.children := by
  obtain ⟨c, hc, hsame⟩ := h
  have hcn : c = n := hs.sharing c (mem_preorder_trans hp (mem_preorder_child hc)) n hn hsame
  exact hcn ▸ hc

/-- In a tree that holds each node once, no node has the root for a child. -/
theorem Single.not_holds_root (hs : Single root) (hp : p ∈ root.preorder) : ¬p.Holds root := by
  rintro ⟨c, hc, hsame⟩
  rw [Single, preorder_eq, List.pairwise_cons] at hs
  exact hs.1 c (mem_below_of_child hp hc) (same_iff.mp hsame).symm

/-- In a tree that holds each node once, a node is at one path only. -/
theorem Single.at?_inj {path path' : List Nat} {n' : Node} (hs : Single root) (h : root.at? path = some n)
    (h' : root.at? path' = some n') (hid : n.identity = n'.identity) : path = path' := by
  have hbelow : ∀ {root m : Node} {i : Nat} {rest : List Nat}, Single root → root.at? (i :: rest) = some m →
      root.identity ≠ m.identity := by
    intro root m i rest hs hm
    obtain ⟨c, hc, hm⟩ := at?_cons.mp hm
    rw [Single, preorder_eq, List.pairwise_cons] at hs
    exact hs.1 m (List.mem_flatMap.mpr ⟨c, List.mem_of_getElem? hc, mem_preorder_of_at? hm⟩)
  have happart : ∀ {root m m' : Node} {i j : Nat} {rest rest' : List Nat}, Single root → i < j →
      root.at? (i :: rest) = some m → root.at? (j :: rest') = some m' → m.identity ≠ m'.identity := by
    intro root m m' i j rest rest' hs hij hm hm'
    obtain ⟨c, hc, hm⟩ := at?_cons.mp hm
    obtain ⟨d, hd, hm'⟩ := at?_cons.mp hm'
    obtain ⟨hi, rfl⟩ := List.getElem?_eq_some_iff.mp hc
    obtain ⟨hj, rfl⟩ := List.getElem?_eq_some_iff.mp hd
    rw [Single, preorder_eq, List.pairwise_cons, List.pairwise_flatMap] at hs
    exact List.pairwise_iff_getElem.mp hs.2.2 i j hi hj hij m (mem_preorder_of_at? hm) m' (mem_preorder_of_at? hm')
  induction path generalizing root path' with
  | nil =>
    obtain rfl := Option.some.inj h
    cases path' with
    | nil => rfl
    | cons j path' => exact absurd hid (hbelow hs h')
  | cons i path ih =>
    cases path' with
    | nil =>
      obtain rfl := Option.some.inj h'
      exact absurd hid.symm (hbelow hs h)
    | cons j path' =>
      rcases Nat.lt_trichotomy i j with hij | rfl | hij
      · exact absurd hid (happart hs hij h h')
      · obtain ⟨c, hc, hn⟩ := at?_cons.mp h
        obtain ⟨d, hd, hn'⟩ := at?_cons.mp h'
        cases hc.symm.trans hd
        rw [ih (hs.sub (mem_preorder_child (List.mem_of_getElem? hc))) hn hn']
      · exact absurd hid.symm (happart hs hij h' h)

end Single

end Node

namespace Units
open Node

section Parents
variable {u : Units} {root n p : Node} {q : Span}

theorem parent?_eq (hq : n.span = some q) (hroot : u.tree? q.file = some root) :
    u.parent? n = parentOf? n q root := by
  rw [parent?, hq]
  show ((u.tree? q.file).bind fun root => parentOf? n q root) = _
  rw [hroot]
  rfl

/-- Only a node of the tree that has the one in question for a child is found. -/
theorem holds_of_parent? (hq : n.span = some q) (hroot : u.tree? q.file = some root) (h : u.parent? n = some p) :
    p ∈ root.preorder ∧ p.Holds n := by
  rw [parent?_eq hq hroot] at h
  obtain ⟨hmem, -, hholds⟩ := parentOf?_inv h
  exact ⟨hmem, hholds⟩

theorem parent?_eq_some_iff (hw : Within root) (hs : Single root) (hn : n ∈ root.preorder) (hq : n.span = some q)
    (hroot : u.tree? q.file = some root) : u.parent? n = some p ↔ p ∈ root.preorder ∧ p.Holds n := by
  refine ⟨holds_of_parent? hq hroot, fun ⟨hp, hholds⟩ => ?_⟩
  have hc := hs.mem_children_of_holds hn hp hholds
  exact parent?_of_child hroot (hw.encloses_child hc hq) hs.once hp hc hq

theorem parent?_eq_none_iff (hw : Within root) (hs : Single root) (hn : n ∈ root.preorder) (hq : n.span = some q)
    (hroot : u.tree? q.file = some root) : u.parent? n = none ↔ n = root := by
  constructor
  · intro hnone
    rcases exists_parent_of_mem hn with hnroot | ⟨p, hp, hc⟩
    · exact hnroot
    · rw [(parent?_eq_some_iff hw hs hn hq hroot).mpr ⟨hp, n, hc, n.same_refl⟩] at hnone
      cases hnone
  · rintro rfl
    refine Option.eq_none_iff_forall_ne_some.mpr fun p hp => ?_
    obtain ⟨hmem, hholds⟩ := holds_of_parent? hq hroot hp
    exact hs.not_holds_root hmem hholds

theorem parent?_of_not_mem (hout : ∀ m ∈ root.preorder, ¬m.same n) (hq : n.span = some q)
    (hroot : u.tree? q.file = some root) : u.parent? n = none := by
  refine Option.eq_none_iff_forall_ne_some.mpr fun p hp => ?_
  obtain ⟨hmem, c, hc, hsame⟩ := holds_of_parent? hq hroot hp
  exact hout c (mem_preorder_trans hmem (mem_preorder_child hc)) hsame

end Parents

/-- The parent in a tree that holds each node once and whose nodes lie within their ancestors. For a placed node of the
tree it is the one node that has it for a child, and there is none only for the root. A node that is not in the tree has
no parent. -/
theorem parent_holds (u : Units) (file : String) (root : Node) (hroot : u.tree? file = some root) (hw : Within root)
    (hs : Single root) (n : Node) (q : Span) (hq : n.span = some q) (hfile : q.file = file) :
    (n ∈ root.preorder →
      (∀ p, u.parent? n = some p ↔ p ∈ root.preorder ∧ p.Holds n) ∧
      (n ≠ root → ∃! p, p ∈ root.preorder ∧ p.Holds n) ∧
      (u.parent? n = none ↔ n = root)) ∧
    ((∀ m ∈ root.preorder, ¬m.same n) → u.parent? n = none) := by
  subst hfile
  refine ⟨fun hn => ?_, fun hout => parent?_of_not_mem hout hq hroot⟩
  have hsome : ∀ p, u.parent? n = some p ↔ p ∈ root.preorder ∧ p.Holds n := fun p =>
    parent?_eq_some_iff hw hs hn hq hroot
  have hnone := parent?_eq_none_iff hw hs hn hq hroot
  refine ⟨hsome, fun hne => ?_, hnone⟩
  obtain ⟨p, hp⟩ := Option.ne_none_iff_exists'.mp (mt hnone.mp hne)
  refine ⟨p, (hsome p).mp hp, fun p' hp' => ?_⟩
  exact Option.some.inj (((hsome p').mpr hp').symm.trans hp)

/-- The template `a(b)` in a block that has no place, which is all of the block around it. -/
def callInBlocks : CompilationUnit where
  source := { name := "A.scala", text := "a(b)".toList }
  root := .mk (.built 4) (some (.range "A.scala" 0 4)) (.block [.mk (.built 3) none (.block
    [.mk (.built 2) (some (.range "A.scala" 0 4)) (.template
      [.mk (.built 0) (some (.range "A.scala" 0 1)) (.ident "a")]
      [.mk (.built 1) (some (.range "A.scala" 2 3)) (.ident "b")] none [])])])

/-- The argument belongs to the call of the super constructor, which is derived from the template. -/
theorem parent_callInBlocks :
    let root := callInBlocks.root
    (single callInBlocks).tree? "A.scala" = some root ∧ Within root ∧ Single root ∧
      ∃ b call template, root.at? [0, 0, 0, 1] = some b ∧ root.at? [0, 0, 0] = some call ∧
        root.at? [0, 0] = some template ∧ call.tag = .superCall ∧
        (single callInBlocks).parent? b = some call ∧ (single callInBlocks).parent? call = some template ∧
        ∃! p, p ∈ root.preorder ∧ p.Holds b := by
  intro root
  have hwithin : (root.preorder.all fun n => n.preorder.all (n.placesAll fun s t => s.includes t)) = true := by cbv
  simp only [List.all_eq_true, placesAll_iff] at hwithin
  have hids : root.preorder.map (·.identity) =
      [.built 4, .built 3, .built 2, .part (.built 2) .superCall, .built 0, .built 1] := by cbv
  have hsingle : Single root := single_of_identities hids (by decide)
  have hb : root.at? [0, 0, 0, 1] = some (.mk (.built 1) (some (.range "A.scala" 2 3)) (.ident "b")) := by cbv
  obtain ⟨call, hcall, hbcall⟩ := at?_snoc.mp (show root.at? ([0, 0, 0] ++ [1]) = _ from hb)
  obtain ⟨template, htemplate, hcalltemplate⟩ := at?_snoc.mp (show root.at? ([0, 0] ++ [0]) = _ from hcall)
  have hspan : (root.at? [0, 0, 0]).bind (·.span) = some (.range "A.scala" 0 3) := by cbv
  have htag : (root.at? [0, 0, 0]).map (·.tag) = some .superCall := by cbv
  rw [hcall] at hspan htag
  have hparent := fun n q => parent_holds (single callInBlocks) "A.scala" root rfl hwithin hsingle n q
  obtain ⟨hbparent, honly, -⟩ := (hparent _ _ rfl rfl).1 (mem_preorder_of_at? hb)
  obtain ⟨hcallparent, -⟩ := (hparent call _ hspan rfl).1 (mem_preorder_of_at? hcall)
  refine ⟨rfl, hwithin, hsingle, _, call, template, hb, hcall, htemplate, Option.some.inj htag, ?_, ?_, honly ?_⟩
  · exact (hbparent call).mpr ⟨mem_preorder_of_at? hcall, _, List.mem_of_getElem? hbcall, same_refl _⟩
  · exact (hcallparent template).mpr ⟨mem_preorder_of_at? htemplate, _, List.mem_of_getElem? hcalltemplate, same_refl _⟩
  · intro hroot
    cases congrArg identity hroot

end Units

end Reprint
