import Mathlib
import Reprint.Proofs.Call
import Reprint.Proofs.Leaves
import Reprint.Proofs.Row
/-!
Units of one node with names below it. Nothing but the names and the marks between them stands in the text, each name
where its node says. Transparent names take part in that, though layout is never measured from them: the node is laid
out with the other ones, and the transparent ones are part of the gaps (`Lettered.laid`).
-/

namespace Reprint

/-! ### Names -/

namespace Text

/-- Whether a text is not empty, and has neither blanks nor commas nor opening parentheses. -/
def isSolid (t : Text) : Bool := !t.isEmpty && t.all fun c => !isBlank c && c != ',' && c != '('

section Solid
variable {t : Text}

theorem isSolid_iff : t.isSolid = true ↔ t ≠ [] ∧ ∀ c ∈ t, isBlank c = false ∧ c ≠ ',' ∧ c ≠ '(' := by
  simp [isSolid, and_assoc]

theorem isSolid_of_alphanum (hne : t ≠ []) (h : ∀ c ∈ t, c.isAlphanum = true) : t.isSolid = true := by
  simp only [isSolid, Bool.and_eq_true, List.all_eq_true]
  refine ⟨by simpa using hne, fun c hc => ?_⟩
  have hrange : (48 ≤ c.toNat ∧ c.toNat ≤ 57) ∨ (65 ≤ c.toNat ∧ c.toNat ≤ 90) ∨ (97 ≤ c.toNat ∧ c.toNat ≤ 122) := by
    have hc := h c hc
    simp only [Char.isAlphanum, Char.isAlpha, Char.isUpper, Char.isLower, Char.isDigit, Bool.or_eq_true,
      Bool.and_eq_true, decide_eq_true_eq, ge_iff_le, UInt32.le_iff_toNat_le] at hc
    have : c.val.toNat = c.toNat := rfl
    have : '0'.val.toNat = 48 ∧ '9'.val.toNat = 57 := ⟨rfl, rfl⟩
    have : 'A'.val.toNat = 65 ∧ 'Z'.val.toNat = 90 := ⟨rfl, rfl⟩
    have : 'a'.val.toNat = 97 ∧ 'z'.val.toNat = 122 := ⟨rfl, rfl⟩
    omega
  have hmarks : c ≠ ',' ∧ c ≠ '(' := by
    constructor <;> rintro rfl <;> revert hrange <;> decide
  have hblank : isBlank c = false := by
    simp only [isBlank, Bool.or_eq_false_iff, Bool.and_eq_false_iff, decide_eq_false_iff_not, beq_eq_false_iff_ne]
    omega
  simp [hblank, hmarks]

theorem exists_head_of_isSolid (h : t.isSolid = true) :
    ∃ c r, t = c :: r ∧ isBlank c = false ∧ c ≠ ',' ∧ c ≠ '(' := by
  obtain ⟨hne, hall⟩ := isSolid_iff.mp h
  obtain ⟨c, r, rfl⟩ := List.exists_cons_of_ne_nil hne
  exact ⟨c, r, rfl, hall c (List.mem_cons_self ..)⟩

theorem not_mem_of_isSolid {c : Char} (h : t.isSolid = true) (hc : isBlank c = true) : c ∉ t := fun hmem => by
  rw [((isSolid_iff.mp h).2 c hmem).1] at hc
  cases hc

theorem exists_last_of_isSolid (h : t.isSolid = true) :
    ∃ r c, t = r ++ [c] ∧ isBlank c = false ∧ c ≠ ',' ∧ c ≠ '(' := by
  obtain ⟨hne, hall⟩ := isSolid_iff.mp h
  exact ⟨t.dropLast, t.getLast hne, (List.dropLast_concat_getLast hne).symm, hall _ (List.getLast_mem hne)⟩

end Solid

end Text

namespace Node

/-- Whether a node is an identifier with a solid name. -/
def isName (n : Node) : Bool := n.tag == .ident && n.inscription.isSolid

section Names
variable {n : Node}

theorem exists_of_ident (h : n.tag = .ident) : ∃ s, n.kind = .ident s := by
  obtain ⟨i, q, k⟩ := n
  cases k with
  | ident s => exact ⟨s, rfl⟩
  | _ => cases h

theorem children_of_ident (h : n.tag = .ident) : n.children = [] := by
  obtain ⟨s, hs⟩ := exists_of_ident h
  obtain ⟨i, q, k⟩ := n
  cases hs
  rfl

theorem isName_iff : n.isName = true ↔ n.tag = .ident ∧ n.inscription.isSolid = true := by
  rw [isName, Bool.and_eq_true, beq_iff_eq]

end Names

end Node

/-- An identifier is printed from scratch as its name. -/
def Printer.WritesNames (p : Printer) : Prop := ∀ n : Node, n.tag = .ident → p.fallback n = .ok n.inscription

theorem Printer.writesNames_of_pretty {p : Printer} (h : ∀ n, p.fallback n = n.pretty p.style) : p.WritesNames := by
  intro n hn
  obtain ⟨s, hs⟩ := Node.exists_of_ident hn
  obtain ⟨i, q, k⟩ := n
  cases hs
  rw [h, Node.pretty, Node.doc]
  show Except.ok (List.flatMap (Piece.render p.style) [.text s.toList]) = _
  rw [List.flatMap_singleton]
  rfl

theorem Row.mem_cells {r : Row} {pre post : List Cell} {cell : Cell} (h : r.cells = pre ++ cell :: post) :
    cell ∈ r.cells := by
  rw [h]
  exact List.mem_append_right _ (List.mem_cons_self ..)

/-- A unit of one node with names below it, written as a row from the first character of the text to the last one. -/
structure CompilationUnit.Lettered (c : CompilationUnit) (q : Span) (r : Row) : Prop where
  place : c.root.layoutSpan = some q
  whole : q.start = 0 ∧ q.stop = c.source.text.size
  children : c.root.children = r.cells.map (·.node)
  text : c.source.text = r.text
  stands : Row.stands Node.span r.head.size r.cells
  names : ∀ cell ∈ r.cells, cell.node.isName = true ∧ cell.text = cell.node.inscription
  file : ∀ cell ∈ r.cells, ∀ s, cell.node.span = some s → s.file = q.file
  single : c.root.Single

namespace CompilationUnit.Lettered
open Node

section Lettered
variable {c : CompilationUnit} {q : Span} {r : Row}

theorem span (h : c.Lettered q r) : c.root.span = some q := (layoutSpan_eq_some_iff.mp h.place).1

theorem leaf (h : c.Lettered q r) {cell : Cell} (hcell : cell ∈ r.cells) :
    cell.node.tag = .ident ∧ cell.node.children = [] ∧ cell.text ≠ [] := by
  obtain ⟨hname, htext⟩ := h.names cell hcell
  obtain ⟨htag, hsolid⟩ := isName_iff.mp hname
  refine ⟨htag, children_of_ident htag, fun hnil => ?_⟩
  rw [← htext, hnil] at hsolid
  cases hsolid

theorem preorder (h : c.Lettered q r) : c.root.preorder = c.root :: c.root.children := by
  rw [preorder_eq]
  refine congrArg (c.root :: ·) ?_
  have hleaf : ∀ b ∈ c.root.children, b.preorder = [b] := by
    rw [h.children]
    refine List.forall_mem_map.mpr fun cell hcell => ?_
    rw [preorder_eq, (h.leaf hcell).2.1, List.flatMap_nil]
  generalize c.root.children = l at hleaf
  induction l with
  | nil => rfl
  | cons b l ih =>
    rw [List.flatMap_cons, hleaf b (List.mem_cons_self ..), ih fun d hd => hleaf d (List.mem_cons_of_mem _ hd)]
    rfl

/-- Where a leaf stands. -/
theorem leaf_place (h : c.Lettered q r) {pre post : List Cell} {cell : Cell} (hcells : r.cells = pre ++ cell :: post) :
    ∃ s, cell.node.span = some s ∧ s.file = q.file ∧ s.start = (r.head ++ Row.textOf pre).size ∧
      s.stop = s.start + cell.text.size := by
  obtain ⟨s, hs, hstart, hstop⟩ := Row.place_of_stands (hcells ▸ h.stands)
  refine ⟨s, hs, h.file cell (Row.mem_cells hcells) s hs, ?_, ?_⟩
  · rw [hstart, Text.size_append]
  · rw [hstop, hstart]

theorem exists_cell (h : c.Lettered q r) {b : Node} (hb : b ∈ c.root.children) :
    ∃ pre cell post, r.cells = pre ++ cell :: post ∧ b = cell.node := by
  rw [h.children] at hb
  obtain ⟨cell, hcell, rfl⟩ := List.mem_map.mp hb
  obtain ⟨pre, post, hcells⟩ := List.append_of_mem hcell
  exact ⟨pre, cell, post, hcells, rfl⟩

/-- The text of the unit, cut at a leaf. -/
theorem text_split (h : c.Lettered q r) {pre post : List Cell} {cell : Cell} (hcells : r.cells = pre ++ cell :: post) :
    c.source.text = r.head ++ Row.textOf pre ++ (cell.text ++ (cell.gap ++ Row.textOf post)) := by
  rw [h.text, Row.text, hcells, Row.textOf_append, Row.textOf_cons]
  simp only [List.append_assoc]

/-- Leaves that begin together are one. -/
theorem eq_of_start_eq (h : c.Lettered q r) {a b : Node} {s t : Span} (ha : a ∈ c.root.children)
    (hb : b ∈ c.root.children) (hs : a.span = some s) (ht : b.span = some t) (hst : s.start = t.start) : a = b := by
  obtain ⟨pre, x, post, hcells, rfl⟩ := h.exists_cell ha
  obtain ⟨pre', y, post', hcells', rfl⟩ := h.exists_cell hb
  obtain ⟨s', hs', -, hstart, -⟩ := h.leaf_place hcells
  obtain ⟨t', ht', -, hstart', -⟩ := h.leaf_place hcells'
  cases hs.symm.trans hs'
  cases ht.symm.trans ht'
  rw [hstart, hstart', Text.size_append, Text.size_append] at hst
  -- The one that comes later in the row has the text of the other one before it.
  have hlater : ∀ {pre pre' post post' : List Cell} {x y : Cell}, r.cells = pre ++ x :: post →
      r.cells = pre' ++ y :: post' → pre.length < pre'.length → (Row.textOf pre).size < (Row.textOf pre').size := by
    intro pre pre' post post' x y hx hy hlt
    obtain ⟨mid, rfl, -⟩ : ∃ mid, pre' = pre ++ x :: mid ∧ post = mid ++ y :: post' := by
      rcases List.append_eq_append_iff.mp (hx.symm.trans hy) with ⟨m, rfl, hm⟩ | ⟨m, rfl, -⟩
      · cases m with
        | nil => simp at hlt
        | cons d m =>
          obtain ⟨rfl, rfl⟩ := List.cons.inj hm
          exact ⟨m, rfl, rfl⟩
      · simp at hlt
    have hpos : 0 < x.text.size := Nat.pos_of_ne_zero (mt Text.size_eq_zero_iff.mp (h.leaf (Row.mem_cells hx)).2.2)
    rw [Row.textOf_append, Row.textOf_cons]
    simp only [Text.size_append]
    omega
  rcases Nat.lt_trichotomy pre.length pre'.length with hlt | heq | hlt
  · have := hlater hcells hcells' hlt
    omega
  · obtain ⟨-, hrest⟩ := List.append_inj (hcells.symm.trans hcells') heq
    rw [(List.cons.inj hrest).1]
  · have := hlater hcells' hcells hlt
    omega

theorem mem_preorder (h : c.Lettered q r) {n : Node} (hn : n ∈ c.root.preorder) :
    n = c.root ∨ n ∈ c.root.children := by
  rw [h.preorder] at hn
  exact List.mem_cons.mp hn

theorem tag_ne (h : c.Lettered q r) {b : Node} (hb : b ∈ c.root.children) : b.tag ≠ c.root.tag := by
  obtain ⟨pre, cell, post, hcells, rfl⟩ := h.exists_cell hb
  obtain ⟨htag, -⟩ := h.leaf (Row.mem_cells hcells)
  intro heq
  rw [children_of_ident (heq.symm.trans htag)] at hb
  cases hb

/-- The leaves fit the text. -/
theorem leaf_fits (h : c.Lettered q r) {b : Node} {s : Span} (hb : b ∈ c.root.children) (hs : b.span = some s) :
    q.includes s ∧ c.source.text.isBoundary s.start ∧ c.source.text.isBoundary s.stop := by
  obtain ⟨pre, cell, post, hcells, rfl⟩ := h.exists_cell hb
  obtain ⟨t, ht, hfile, hstart, hstop⟩ := h.leaf_place hcells
  cases hs.symm.trans ht
  have htext := h.text_split hcells
  refine ⟨Span.includes_iff.mpr ⟨hfile.symm, by rw [h.whole.1]; exact Nat.zero_le _, ?_⟩, ?_, ?_⟩
  · rw [h.whole.2, htext, hstop, hstart]
    simp only [Text.size_append]
    omega
  · rw [htext, hstart]
    exact Text.isBoundary_append_size ..
  · have hcut := Text.isBoundary_append_size (r.head ++ Row.textOf pre ++ cell.text) (cell.gap ++ Row.textOf post)
    rw [htext, hstop, hstart]
    simpa only [List.append_assoc, Text.size_append, Nat.add_assoc] using hcut

theorem sound (h : c.Lettered q r) : c.Sound where
  within := by
    intro n hn m hm s t hs ht
    rcases h.mem_preorder hn with rfl | hn
    · cases h.span.symm.trans hs
      rcases h.mem_preorder hm with rfl | hm
      · cases hs.symm.trans ht
        exact Span.includes_refl _
      · exact (h.leaf_fits hm ht).1
    · obtain ⟨pre, cell, post, hcells, rfl⟩ := h.exists_cell hn
      rw [preorder_eq, (h.leaf (Row.mem_cells hcells)).2.1, List.flatMap_nil, List.mem_singleton] at hm
      subst hm
      cases hs.symm.trans ht
      exact Span.includes_refl _
  distinct := by
    intro a ha b hb s t hs ht hst htag
    rcases h.mem_preorder ha with rfl | ha <;> rcases h.mem_preorder hb with rfl | hb
    · rfl
    · exact absurd htag.symm (h.tag_ne hb)
    · exact absurd htag (h.tag_ne ha)
    · exact h.eq_of_start_eq ha hb hs ht (Span.sameRange_iff.mp hst).2.1
  single := h.single
  fits := by
    intro n hn s hs
    rcases h.mem_preorder hn with rfl | hn
    · cases h.span.symm.trans hs
      rw [h.whole.1, h.whole.2]
      exact ⟨Text.isBoundary_zero _, Text.isBoundary_size _⟩
    · exact (h.leaf_fits hn hs).2

theorem name_child (h : c.Lettered q r) {b : Node} (hb : b ∈ c.root.children) : b.isName = true ∧ b.span.isSome := by
  obtain ⟨pre, cell, post, hcells, rfl⟩ := h.exists_cell hb
  obtain ⟨s, hs, -⟩ := h.leaf_place hcells
  exact ⟨(h.names cell (Row.mem_cells hcells)).1, by rw [hs]; rfl⟩

theorem span_child (h : c.Lettered q r) {b : Node} (hb : b ∈ c.root.children) : b.span ≠ none :=
  Option.isSome_iff_ne_none.mp (h.name_child hb).2

theorem counterpart_child {u : Units} (h : c.Lettered q r) (hunit : u.get? q.file = some c) {b : Node}
    (hb : b ∈ c.root.children) : u.counterpart? b = some b := by
  obtain ⟨pre, cell, post, hcells, rfl⟩ := h.exists_cell hb
  obtain ⟨s, hs, hfile, -⟩ := h.leaf_place hcells
  exact Units.counterpart?_self h.sound.within h.sound.distinct (mem_preorder_child hb) hs
    (by rw [hfile, Laid.tree hunit])

/-- Another tree of names shares the children that it has from the root, if its other nodes are new. -/
theorem sharing {edited : Node} (hc : c.Lettered q r)
    (hroot : edited.identity ∉ (c.root :: c.root.children).map identity)
    (heach : ∀ a ∈ edited.children,
      a ∈ c.root.children ∨ (a.isName = true ∧ a.identity ∉ (c.root :: c.root.children).map identity)) :
    Sharing edited c.root := by
  rw [← hc.preorder] at hroot heach
  intro n hn b hb hsame
  have hid := same_iff.mp hsame
  have hmem : n.identity ∈ c.root.preorder.map identity := by
    rw [hid]
    exact List.mem_map_of_mem hb
  rw [preorder_eq] at hn
  rcases List.mem_cons.mp hn with rfl | hn
  · exact absurd hmem hroot
  · obtain ⟨a, ha, hn⟩ := List.mem_flatMap.mp hn
    have hleaf : a.children = [] := by
      rcases heach a ha with hchild | ⟨hname, -⟩
      · exact children_of_ident (isName_iff.mp (hc.name_child hchild).1).1
      · exact children_of_ident (isName_iff.mp hname).1
    rw [preorder_eq, hleaf, List.flatMap_nil, List.mem_singleton] at hn
    subst hn
    rcases heach n ha with hchild | ⟨-, hfresh⟩
    · exact List.inj_on_of_nodup_map (List.pairwise_map.mpr hc.single) (mem_preorder_child hchild) hb hid
    · exact absurd hmem hfresh

/-- The node is laid out with the names from which layout is measured. -/
theorem laid (h : c.Lettered q r) : c.Laid c.root q r.anchored where
  once := h.single.once
  above := h.sound.within.encloses h.span
  mem := c.root.mem_preorder_self
  place := h.place
  anchors := by rw [Layout.anchors, h.children, Row.anchored, Row.node_anchorCells]
  file := by
    intro cell hcell s hs
    have hmem := List.mem_map_of_mem (f := (·.node)) hcell
    rw [Row.anchored, Row.node_anchorCells] at hmem
    obtain ⟨cell', hcell', hnode⟩ := List.mem_map.mp (List.mem_filter.mp hmem).1
    exact h.file cell' hcell' s (hnode ▸ hs)
  text := by
    rw [Row.text_anchored, ← h.text]
    exact Source.slice_eq_ok_iff.mpr ⟨[], [], (List.append_nil _).symm, h.whole.1.symm, h.whole.2.symm⟩
  sits := by
    rw [h.whole.1, Nat.zero_add, Row.anchored, Text.size_append]
    exact Row.sits_anchorCells h.stands

/-- The text at the place of a name. -/
theorem slice_child (h : c.Lettered q r) {b : Node} {s : Span} (hb : b ∈ c.root.children) (hs : b.span = some s) :
    s.file = q.file ∧ c.source.slice s.start s.stop = .ok b.inscription := by
  obtain ⟨pre, cell, post, hcells, rfl⟩ := h.exists_cell hb
  obtain ⟨t, ht, hfile, hstart, hstop⟩ := h.leaf_place hcells
  cases hs.symm.trans ht
  refine ⟨hfile, Source.slice_eq_ok_iff.mpr ⟨r.head ++ Row.textOf pre, cell.gap ++ Row.textOf post, ?_, hstart.symm, ?_⟩⟩
  · rw [h.text_split hcells, (h.names cell (Row.mem_cells hcells)).2]
    simp only [List.append_assoc]
  · rw [hstop, hstart, ← (h.names cell (Row.mem_cells hcells)).2, Text.size_append (r.head ++ Row.textOf pre)]

end Lettered

end CompilationUnit.Lettered

end Reprint
