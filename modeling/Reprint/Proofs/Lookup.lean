import Mathlib
import Reprint.Proofs.Foremost
import Reprint.Proofs.Kept
import Reprint.Proofs.OwnRoot
/-!
Finding the counterpart of a node. The search goes only below nodes whose range includes the place of the node. Where
nodes lie within their ancestors it finds what a search of the whole tree would find: the last node, parents before
children, that coincides with the node in place and tag. If different branches have no offset in common, nodes that
coincide at a range with text stand one below the other, and the last of them is the innermost.
-/

namespace Reprint

namespace Node

/-- The same tag, and the same file, start, point and stop. -/
def Coincides (m n : Node) : Prop :=
  m.tag = n.tag ∧ ∃ s t, m.span = some s ∧ n.span = some t ∧
    s.file = t.file ∧ s.start = t.start ∧ s.point = t.point ∧ s.stop = t.stop

theorem coincides_iff {m n : Node} {q : Span} (hq : n.span = some q) :
    m.Coincides n ↔ m.standsAt q ∧ m.tag = n.tag := by
  rw [Coincides, hq, standsAt_iff, and_comm]
  simp only [Option.some.injEq, exists_eq_left', exists_and_left, Span.sameRange_iff]

/-- Placed nodes of which neither is an ancestor of the other have no offset in common. -/
def Branching (root : Node) : Prop :=
  ∀ a ∈ root.preorder, ∀ b ∈ root.preorder, a ∉ b.preorder → b ∉ a.preorder →
    ∀ s t, a.span = some s → b.span = some t → s.Disjoint t

theorem mem_preorder_of_extends {root a b : Node} {p q : List Nat} (hp : root.at? p = some a) (hq : root.at? q = some b)
    (h : p <+: q) : b ∈ a.preorder := by
  obtain ⟨rest, rfl⟩ := h
  rw [at?_append, hp] at hq
  exact mem_preorder_of_at? hq

theorem Apart.branching {root : Node} (h : Apart root) : Branching root := by
  intro a ha b hb hab hba s t hs ht
  obtain ⟨p, hp⟩ := exists_at?_of_mem_preorder ha
  obtain ⟨q, hq⟩ := exists_at?_of_mem_preorder hb
  rcases path_cases p q with hpq | hqp | ⟨k, i, j, p', q', hij, rfl, rfl⟩
  · exact absurd (mem_preorder_of_extends hp hq hpq) hba
  · exact absurd (mem_preorder_of_extends hq hp hqp) hab
  · exact Span.disjoint_of_not_overlaps (h.at? hij hp hq hs ht)

/-- Of coinciding nodes the last one is below all others, if branches have no offset in common. -/
theorem Branching.below_of_last {root n m o : Node} {q : Span} {pre post : List Node} (hb : Branching root)
    (hq : n.span = some q) (hne : q.start < q.stop) (ho : o.Coincides n) (hsplit : root.preorder = pre ++ o :: post)
    (hlast : ∀ x ∈ post, ¬x.Coincides n) (hm : m ∈ root.preorder) (hmn : m.Coincides n) : o ∈ m.preorder := by
  by_contra hbelow
  have homem : o ∈ root.preorder := by rw [hsplit]; simp
  by_cases habove : m ∈ o.preorder
  · -- What is below `o` comes behind it.
    rcases List.mem_cons.mp (mem_of_child_of_mem hsplit (List.mem_cons_self ..) habove) with rfl | hbehind
    · exact hbelow m.mem_preorder_self
    · exact hlast m hbehind hmn
  · obtain ⟨-, s, q', hs, hq', hfile, hstart, -, hstop⟩ := hmn
    obtain ⟨-, t, q'', ht, hq'', hfile', hstart', -, hstop'⟩ := ho
    cases hq.symm.trans hq'
    cases hq.symm.trans hq''
    exact hb m hm o homem habove hbelow s t hs ht (hfile.trans hfile'.symm) q.start (by omega)

end Node

namespace Units
open Node

section Lookup
variable {u : Units} {root n o : Node} {q : Span}

theorem counterpart?_eq_some_iff_last (hw : Within root) (hq : n.span = some q) (hroot : u.tree? q.file = some root) :
    u.counterpart? n = some o ↔
      o.Coincides n ∧ ∃ pre post, root.preorder = pre ++ o :: post ∧ ∀ x ∈ post, ¬x.Coincides n := by
  rw [counterpart?_eq_some_iff hw hq hroot]
  simp only [coincides_iff hq, not_and, ne_eq]

theorem counterpart?_eq_none_iff (hw : Within root) (hq : n.span = some q) (hroot : u.tree? q.file = some root) :
    u.counterpart? n = none ↔ ∀ x ∈ root.preorder, ¬x.Coincides n := by
  rw [counterpart?_eq hq hroot, atRange_eq_filter hw, List.find?_eq_none]
  simp only [List.mem_reverse, List.mem_filter, beq_iff_eq, coincides_iff hq, not_and, and_imp]

end Lookup

/-- The counterpart in a tree whose nodes lie within their ancestors. It is the last node that coincides with the one
in question, and there is none only if nothing coincides. Where branches have no offset in common and the range holds
text, every path to a coinciding node leads on to it. Where no two nodes coincide, placed nodes are their own
counterparts. -/
theorem counterpart_last_coinciding (u : Units) (file : String) (root : Node) (hroot : u.tree? file = some root)
    (hw : Within root) :
    (∀ n q, n.span = some q → q.file = file →
      (∀ o, u.counterpart? n = some o ↔
        o.Coincides n ∧ ∃ pre post, root.preorder = pre ++ o :: post ∧ ∀ x ∈ post, ¬x.Coincides n) ∧
      (u.counterpart? n = none ↔ ∀ x ∈ root.preorder, ¬x.Coincides n) ∧
      (Branching root → q.start < q.stop → ∀ o, u.counterpart? n = some o →
        ∀ path x, root.at? path = some x → x.Coincides n →
          ∃ deeper, path <+: deeper ∧ root.at? deeper = some o)) ∧
    (Distinct root → ∀ d ∈ root.preorder, ∀ t, d.span = some t → t.file = file → u.counterpart? d = some d) := by
  refine ⟨fun n q hq hfile => ?_, fun hd d hmem t ht hfile => ?_⟩
  · have hroot' : u.tree? q.file = some root := by rw [hfile, hroot]
    refine ⟨fun o => counterpart?_eq_some_iff_last hw hq hroot', counterpart?_eq_none_iff hw hq hroot', ?_⟩
    intro hb hne o ho path x hx hxn
    obtain ⟨hon, pre, post, hsplit, hpost⟩ := (counterpart?_eq_some_iff_last hw hq hroot').mp ho
    have hbelow := hb.below_of_last hq hne hon hsplit hpost (mem_preorder_of_at? hx) hxn
    obtain ⟨rest, hrest⟩ := exists_at?_of_mem_preorder hbelow
    exact ⟨path ++ rest, List.prefix_append .., by rw [at?_append, hx]; exact hrest⟩
  · exact counterpart?_self hw hd hmem ht (by rw [hfile, hroot])

/-- Two blocks over `{a}`, with a block between them that has no place. -/
def enclosedBlock : CompilationUnit where
  source := { name := "A.scala", text := "\x7ba\x7d".toList }
  root := .mk (.built 3) (some (.range "A.scala" 0 3)) (.block [.mk (.built 2) none (.block
    [.mk (.built 1) (some (.range "A.scala" 0 3)) (.block
      [.mk (.built 0) (some (.range "A.scala" 1 2)) (.ident "a")])])])

/-- A new block in their place is paired with the innermost one. -/
theorem counterpart_enclosedBlock :
    let root := enclosedBlock.root
    let edited := Node.mk (.built 4) (some (.range "A.scala" 0 3)) (.block [])
    (single enclosedBlock).tree? "A.scala" = some root ∧ Within root ∧ Branching root ∧
      ∃ o, (single enclosedBlock).counterpart? edited = some o ∧ root.at? [0, 0] = some o ∧
        ∀ path x, root.at? path = some x → x.Coincides edited →
          ∃ deeper, path <+: deeper ∧ root.at? deeper = some o := by
  intro root edited
  have hwithin : (root.preorder.all fun n => n.preorder.all (n.placesAll fun s t => s.includes t)) = true := by cbv
  have hchain : (root.preorder.all fun n => n.children.length ≤ 1) = true := by cbv
  simp only [List.all_eq_true, placesAll_iff, decide_eq_true_eq] at hwithin hchain
  have hbranching : Branching root := by
    refine Apart.branching fun n hn i j a b hij ha hb => ?_
    have hi := (List.getElem?_eq_some_iff.mp ha).1
    have hj := (List.getElem?_eq_some_iff.mp hb).1
    have := hchain n hn
    omega
  have hcp : (single enclosedBlock).counterpart? edited = root.at? [0, 0] := by cbv
  obtain ⟨hlook, -⟩ := counterpart_last_coinciding (single enclosedBlock) "A.scala" root rfl hwithin
  obtain ⟨-, -, hdeepest⟩ := hlook edited (.range "A.scala" 0 3) rfl rfl
  exact ⟨rfl, hwithin, hbranching, _, hcp, rfl, hdeepest hbranching (by decide) _ hcp⟩

end Units

end Reprint
