import Mathlib
import Reprint.Proofs.Discovery
import Reprint.Proofs.Runs
/-!
Regenerating a tree that was not edited. The base root is handed back as it is, and nothing happens as long as
the root is its own counterpart. A node below it with the same range and tag takes that role over; the root
is then compared with that node, and regeneration rewrites a text that nobody has changed. In a nested tree it
always does: a silent comparison would need one more such node further down, and so on without end.
-/

namespace Reprint

namespace Node

/-- No other node of the tree has the range `q` and the tag of the root. -/
def Alone (q : Span) (root : Node) : Prop :=
  ∀ n ∈ root.preorder, n.standsAt q → n.tag = root.tag → n = root

/-- Identities tell the nodes of a tree apart. -/
def Individual (root : Node) : Prop := ∀ a ∈ root.preorder, ∀ b ∈ root.preorder, a.same b → a = b

/-- Every node that has a node with the range `q` and the tag of the root below it has a place. -/
def Traced (q : Span) (root : Node) : Prop :=
  ∀ n ∈ root.preorder, ∀ m ∈ n.preorder, m.standsAt q → m.tag = root.tag → n.span.isSome

theorem mem_of_child_of_mem {root x c : Node} {pre post : List Node} (h : root.preorder = pre ++ post)
    (hx : x ∈ post) (hc : c ∈ x.preorder) : c ∈ post := by
  obtain ⟨p, q, rfl⟩ := List.append_of_mem hx
  rw [← List.append_assoc] at h
  obtain ⟨rest, rfl⟩ := preorder_split h
  rcases mem_preorder_iff.mp hc with rfl | ⟨d, hd, hc⟩
  · simp
  · refine List.mem_append_right _ (List.mem_cons_of_mem _ (List.mem_append_left _ ?_))
    exact List.mem_flatMap.mpr ⟨d, hd, hc⟩

end Node

namespace Units
open Node

/-- The counterpart of a node stands behind every place where its slot is found. -/
theorem counterpart?_mem_of_later {u : Units} {root n d : Node} {t : Span} {pre post : List Node}
    (hw : Within root) (hsplit : root.preorder = pre ++ post) (hd : d ∈ post) (ht : d.span = some t)
    (hroot : u.tree? t.file = some root) (h : n.sameSlot d) : ∃ o ∈ post, u.counterpart? n = some o := by
  obtain ⟨htag, ⟨q, t', hq, ht', hqt⟩ | ⟨-, hnone⟩⟩ := sameSlot_iff.mp h
  · cases ht.symm.trans ht'
    have hfile : q.file = t.file := (Span.sameRange_iff.mp hqt).1
    rw [counterpart?_eq hq (by rw [hfile]; exact hroot), atRange_eq_filter hw, hsplit, List.filter_append,
      List.reverse_append, List.find?_append]
    cases hf : (post.filter (·.standsAt q)).reverse.find? (·.tag == n.tag) with
    | none =>
      have hin : d ∈ (post.filter (·.standsAt q)).reverse :=
        List.mem_reverse.mpr (List.mem_filter.mpr ⟨hd, standsAt_iff.mpr ⟨t, ht, Span.sameRange_symm hqt⟩⟩)
      exact absurd (beq_iff_eq.mpr htag.symm) (List.find?_eq_none.mp hf d hin)
    | some o =>
      exact ⟨o, (List.mem_filter.mp (List.mem_reverse.mp (List.mem_of_find?_eq_some hf))).1, rfl⟩
  · rw [ht] at hnone
    cases hnone

/-- A positioned root of a unit has a counterpart. -/
theorem counterpart?_root_isSome {u : Units} {root : Node} {q : Span} (hq : root.span = some q)
    (hroot : u.tree? q.file = some root) : (u.counterpart? root).isSome := by
  rw [counterpart?_eq hq hroot, List.find?_isSome]
  refine ⟨root, List.mem_reverse.mpr (mem_atRange_self ?_), beq_self_eq_true _⟩
  exact standsAt_iff.mpr ⟨q, hq, Span.sameRange_refl q⟩

end Units

namespace Region
open Node

/-- A root without a double is its own counterpart, so discovery passes it over. -/
theorem search_nil_of_alone {u : Units} {root : Node} {q : Span} (hq : root.span = some q) (ha : Alone q root)
    (hroot : u.tree? q.file = some root) : search u root = [] := by
  refine search_eq_nil_iff.mpr fun o ho => .inl ?_
  obtain ⟨q', root', hq', hroot', hmem, htag⟩ := Units.counterpart?_inv ho
  cases hq.symm.trans hq'
  cases hroot.symm.trans hroot'
  rw [ha o (mem_atRange hmem).1 (mem_atRange hmem).2 htag]
  exact same_refl root

section Double
variable {u : Units} {root o : Node} {q : Span} {pre post : List Node}

/-- Above the counterpart of the root no node is passed over in silence while a node in its slot stands behind
that counterpart. -/
theorem not_silent_above (hw : Within root) (hi : Individual root) (ht : Traced q root)
    (hroot : u.tree? q.file = some root)
    (hfile : ∀ n ∈ root.preorder, ∀ s, n.span = some s → s.file = q.file)
    (hsplit : root.preorder = pre ++ o :: post) (hlast : ∀ x ∈ post, x.standsAt q → x.tag ≠ root.tag)
    (hoq : o.standsAt q) (hot : o.tag = root.tag) {n : Node} (hn : n ∈ root.preorder) (ho : o ∈ n.preorder)
    (hnil : search u n = []) {d : Node} (hd : d ∈ post) (hslot : n.sameSlot d) : False := by
  have hpost : ∀ {x}, x ∈ post → x ∈ root.preorder := fun hx => by rw [hsplit]; simp [hx]
  have hsplit' : root.preorder = (pre ++ [o]) ++ post := by rw [hsplit, List.append_assoc]; rfl
  induction n using children_induction generalizing d with
  | step n ih =>
    obtain ⟨s, hs⟩ := Option.isSome_iff_exists.mp (ht n hn o ho hoq hot)
    obtain ⟨htag, ⟨s', t, hs', htd, hst⟩ | ⟨hnone, -⟩⟩ := sameSlot_iff.mp hslot
    · cases hs.symm.trans hs'
      rcases mem_preorder_iff.mp ho with rfl | ⟨c, hc, hoc⟩
      · -- `n` is the counterpart of the root, and behind it stands another node in its slot.
        obtain ⟨r, hr, hrq⟩ := standsAt_iff.mp hoq
        cases hs.symm.trans hr
        exact hlast d hd (standsAt_iff.mpr ⟨t, htd, Span.sameRange_trans (Span.sameRange_symm hst) hrq⟩)
          (htag.symm.trans hot)
      · obtain ⟨b, hb, hcp⟩ := Units.counterpart?_mem_of_later hw hsplit' hd htd
          (by rw [hfile d (hpost hd) t htd]; exact hroot) hslot
        rcases search_eq_nil_iff.mp hnil b hcp with hsame | ⟨hagree, hbelow⟩
        · have hnb := hi n hn b (hpost hb) hsame
          exact hlast o (mem_of_child_of_mem hsplit' (hnb ▸ hb) ho) hoq hot
        · obtain ⟨hlen, hslots⟩ := childrenChanged_eq_false_iff.mp hagree.2
          obtain ⟨j, hj⟩ := List.getElem?_of_mem hc
          have hjlt := hlen ▸ (List.getElem?_eq_some_iff.mp hj).1
          have hjb := List.getElem?_eq_getElem hjlt
          exact ih c hc (mem_preorder_trans hn (mem_preorder_child hc)) hoc (hbelow c hc)
            (mem_of_child_of_mem hsplit' hb (mem_preorder_child (List.mem_of_getElem? hjb))) (hslots j _ _ hj hjb)
    · rw [hs] at hnone
      cases hnone

/-- A silent root has no double. -/
theorem alone_of_search_nil (hq : root.span = some q) (hw : Within root) (hi : Individual root) (ht : Traced q root)
    (hroot : u.tree? q.file = some root) (hnil : search u root = []) : Alone q root := by
  obtain ⟨o, ho⟩ := Option.isSome_iff_exists.mp (Units.counterpart?_root_isSome hq hroot)
  obtain ⟨-, pre, post, hsplit, hlast⟩ := (Units.counterpart?_eq_some_iff hw hq hroot).mp ho
  have hfile : ∀ n ∈ root.preorder, ∀ s, n.span = some s → s.file = q.file := fun n hn s hs =>
    (Span.includes_iff.mp (hw root root.mem_preorder_self n hn q s hq hs)).1.symm
  obtain ⟨q', root', hq', hroot', hmem, htag⟩ := Units.counterpart?_inv ho
  cases hq.symm.trans hq'
  cases hroot.symm.trans hroot'
  obtain ⟨homem, hoq⟩ := mem_atRange hmem
  by_cases hor : o = root
  · subst hor
    -- Nothing stands ahead of the root, and nothing behind it has its range and tag.
    have hpre : pre = [] := by
      cases pre with
      | nil => rfl
      | cons x pre =>
        rw [preorder_eq] at hsplit
        have : o ∈ o.children.flatMap preorder := by rw [(List.cons.inj hsplit).2]; simp
        obtain ⟨c, hc, hoc⟩ := List.mem_flatMap.mp this
        exact absurd hoc (not_mem_preorder_child hc)
    intro n hn hnq hnt
    rw [hsplit, hpre, List.nil_append, List.mem_cons] at hn
    exact hn.resolve_right fun hn => hlast n hn hnq hnt
  · exfalso
    rcases mem_preorder_iff.mp homem with h | ⟨c, hc, hoc⟩
    · exact hor h
    · rcases search_eq_nil_iff.mp hnil o ho with hsame | ⟨hagree, hbelow⟩
      · exact hor (hi root root.mem_preorder_self o homem hsame).symm
      · obtain ⟨hlen, hslots⟩ := childrenChanged_eq_false_iff.mp hagree.2
        obtain ⟨j, hj⟩ := List.getElem?_of_mem hc
        have hjo := List.getElem?_eq_getElem (hlen ▸ (List.getElem?_eq_some_iff.mp hj).1)
        obtain ⟨rest, rfl⟩ := preorder_split hsplit
        exact not_silent_above hw hi ht hroot hfile hsplit hlast hoq htag (mem_preorder_child hc) hoc (hbelow c hc)
          (List.mem_append_left _ (List.mem_flatMap.mpr ⟨_, List.mem_of_getElem? hjo, mem_preorder_self _⟩))
          (hslots j _ _ hj hjo)

end Double

end Region

namespace Printer
open Node Region

/-- Regenerating the base root of a unit makes no edit and no diagnostic, and its text stays what it is. -/
def LeavesAlone (p : Printer) (c : CompilationUnit) : Prop :=
  ∃ g, p.regenerate c.root = .ok g ∧ g.edits = [] ∧ g.diagnostics = [] ∧
    Edit.applyAll c.source.text g.edits = .ok c.source.text

theorem leavesAlone_iff {p : Printer} {c : CompilationUnit} (h : (p.units.counterpart? c.root).isSome) :
    p.LeavesAlone c ↔ search p.units c.root = [] := by
  rw [← find_eq_nil_iff]
  constructor
  · rintro ⟨g, hg, hedits, -, -⟩
    obtain ⟨-, hrun⟩ := regenerate_eq_ok_iff.mp hg
    cases hfind : find p.units c.root with
    | nil => rfl
    | cons r rs =>
      rw [hfind, Yields.mapM_cons_iff, hedits] at hrun
      obtain ⟨e, ds, es, -, -, heq⟩ := hrun
      cases heq
  · intro hfind
    refine ⟨{ edits := [], diagnostics := [] }, regenerate_eq_ok_iff.mpr ⟨h, ?_⟩, rfl, rfl, applyAll_nil _⟩
    rw [hfind]
    exact Yields.mapM_nil_iff.mpr ⟨rfl, rfl⟩

/-- When regenerating an unedited tree does nothing: exactly when every pair that discovery compares is one node
or agrees. It is so whenever the root has no double. In a tree whose nodes lie within their ancestors, with no
unplaced node above a double, it is so only then. -/
theorem leavesAlone_own_root (p : Printer) (c : CompilationUnit) (q : Span) (hunit : p.units.get? q.file = some c)
    (hq : c.root.span = some q) :
    (p.LeavesAlone c ↔ ∀ n base, Compared p.units c.root n base → n.same base ∨ n.Agrees base) ∧
      (Alone q c.root → p.LeavesAlone c) ∧
      (Within c.root → Individual c.root → Traced q c.root → (p.LeavesAlone c ↔ Alone q c.root)) := by
  have hroot : p.units.tree? q.file = some c.root := by rw [Units.tree?, hunit, Option.map_some]
  have hiff := leavesAlone_iff (Units.counterpart?_root_isSome hq hroot)
  refine ⟨hiff.trans search_eq_nil_iff_compared, fun ha => hiff.mpr (search_nil_of_alone hq ha hroot), ?_⟩
  intro hw hi ht
  exact ⟨fun h => alone_of_search_nil hq hw hi ht hroot (hiff.mp h),
    fun ha => hiff.mpr (search_nil_of_alone hq ha hroot)⟩

/-- A block over `a` alone, which is its only statement. -/
def wrappedName : CompilationUnit where
  source := { name := "A.scala", text := ['a'] }
  root := .mk (.built 1) (some (.range "A.scala" 0 1))
    (.block [.mk (.built 0) (some (.range "A.scala" 0 1)) (.ident "a")])

theorem leavesAlone_wrappedName :
    (plain wrappedName).units.get? "A.scala" = some wrappedName ∧
      wrappedName.root.span = some (.range "A.scala" 0 1) ∧ (plain wrappedName).LeavesAlone wrappedName := by
  refine ⟨rfl, rfl, (leavesAlone_own_root (plain wrappedName) wrappedName (.range "A.scala" 0 1) rfl rfl).2.1 ?_⟩
  intro n hn _ htag
  rcases mem_preorder_iff.mp hn with rfl | ⟨c, hc, hn⟩
  · rfl
  · rw [List.mem_singleton.mp hc] at hn
    rcases mem_preorder_iff.mp hn with rfl | ⟨d, hd, -⟩
    · cases htag
    · cases hd

/-- A block over `{a}` with a second block over the same range in it. -/
def doubledBlock : CompilationUnit where
  source := { name := "A.scala", text := "\x7ba\x7d".toList }
  root := .mk (.built 2) (some (.range "A.scala" 0 3))
    (.block [.mk (.built 1) (some (.range "A.scala" 0 3))
      (.block [.mk (.built 0) (some (.range "A.scala" 1 2)) (.ident "a")])])

/-- The unedited block is printed once more around itself. -/
theorem doubledBlock_rewritten :
    ¬(plain doubledBlock).LeavesAlone doubledBlock ∧
      ∃ g, (plain doubledBlock).regenerate doubledBlock.root = .ok g ∧
        Edit.applyAll doubledBlock.source.text g.edits = .ok "\x7b\x7ba\x7d\x7d".toList := by
  obtain ⟨g, hg, happly⟩ : ∃ g, (plain doubledBlock).regenerate doubledBlock.root = .ok g ∧
      Edit.applyAll doubledBlock.source.text g.edits = .ok "\x7b\x7ba\x7d\x7d".toList :=
    rewrite?_eq_some_iff.mp (by cbv)
  refine ⟨?_, g, hg, happly⟩
  rintro ⟨g', hg', -, -, happly'⟩
  cases hg.symm.trans hg'
  cases happly.symm.trans happly'

end Printer

end Reprint
