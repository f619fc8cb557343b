import Mathlib
import Reprint.Proofs.Anchors
import Reprint.Proofs.Sides
/-!
Layout as a partition of the text. A gap is cut between two of its segments, so that no comment is cut, and each half
gives up one comma at most. What leads and trails the children of a node and what is left to the node itself are the
halves of its gaps, each half once. Main statement: put together, they are the text of the node but for these commas,
and the very text where no gap holds a comma.
-/

namespace Reprint

namespace Gap
open Text

/-! ### Halves of a gap -/

/-- The text of segments of which one comma may be missing. Commas in comments are no segments of their own. -/
def LessComma (ss : List Segment) (t : Text) : Prop :=
  t = raws ss ∨ ∃ pre post, ss = pre ++ .code ',' :: post ∧ t = raws (pre ++ post)

/-- A gap is cut between two segments into `l` and `r`. -/
def Halves (g l r : Text) : Prop := ∃ ss ss', segments g = ss ++ ss' ∧ LessComma ss l ∧ LessComma ss' r

theorem lessComma_leftOf {t : Text} {ss ss' : List Segment} (h : segments t = ss ++ ss') :
    LessComma ss (leftOf t (size (raws ss))) := by
  rcases leftOf_cut h with ⟨s, s', hcomma, hleft⟩ | ⟨-, hleft⟩
  · exact .inr ⟨s, s', hcomma.1, hleft⟩
  · exact .inl hleft

theorem lessComma_rightOf {t : Text} {ss ss' : List Segment} (h : segments t = ss ++ ss') :
    LessComma ss' (rightOf t (size (raws ss))) := by
  rcases rightOf_cut h with ⟨s, s', hcomma, hright⟩ | ⟨-, hright⟩
  · exact .inr ⟨s, s', hcomma.1, hright⟩
  · exact .inl hright

theorem halves_divide {t : Text} {i : Nat} (h : IsCut t i) : Halves t (divide t i).1 (divide t i).2 := by
  obtain ⟨ss, ss', hss, rfl⟩ := h
  exact ⟨ss, ss', hss, lessComma_leftOf hss, lessComma_rightOf hss⟩

theorem halves_splitBetween (t : Text) (j : Junction) : Halves t (splitBetween t j).1 (splitBetween t j).2 :=
  halves_divide (isCut_indexBetween t j)

theorem halves_splitLeading (parent : Node) (t : Text) :
    Halves t (splitLeading parent t).1 (splitLeading parent t).2 :=
  halves_divide (isCut_indexLeading parent t)

theorem halves_splitTrailing (t : Text) : Halves t (splitTrailing t).1 (splitTrailing t).2 :=
  halves_divide (isCut_indexTrailing t)

/-- A gap without the commas that its halves gave up. -/
def Thinned (g g' : Text) : Prop := ∃ l r, Halves g l r ∧ g' = l ++ r

theorem LessComma.eq_raws {ss : List Segment} {t : Text} (h : LessComma ss t) (hcomma : Segment.code ',' ∉ ss) :
    t = raws ss := by
  rcases h with rfl | ⟨pre, post, rfl, -⟩
  · rfl
  · exact absurd (by simp) hcomma

theorem Thinned.eq {g g' : Text} (h : Thinned g g') (hcomma : Segment.code ',' ∉ segments g) : g' = g := by
  obtain ⟨l, r, ⟨ss, ss', hss, hl, hr⟩, rfl⟩ := h
  rw [hss, List.mem_append, not_or] at hcomma
  rw [hl.eq_raws hcomma.1, hr.eq_raws hcomma.2, ← raws_append, ← hss, raws_segments]

end Gap

namespace Row

/-- The gaps of a row, the one ahead of the first child included. -/
def gaps (r : Row) : List Text := r.head :: r.cells.map (·.gap)

/-- A row with the same children, whose gaps are without the commas that their halves gave up. -/
structure Thinned (r r' : Row) : Prop where
  head : Gap.Thinned r.head r'.head
  cells : List.Forall₂ (fun c c' => c.node = c'.node ∧ c.text = c'.text ∧ Gap.Thinned c.gap c'.gap) r.cells r'.cells

theorem Thinned.text_eq {r r' : Row} (h : r.Thinned r')
    (hcomma : ∀ g ∈ r.gaps, Gap.Segment.code ',' ∉ Gap.segments g) : r'.text = r.text := by
  obtain ⟨head, cells⟩ := r
  obtain ⟨head', cells'⟩ := r'
  obtain ⟨hhead, hcells⟩ := h
  obtain ⟨hfirst, hothers⟩ := List.forall_mem_cons.mp hcomma
  obtain rfl := hhead.eq hfirst
  clear hcomma hfirst hhead
  rw [text, text]
  congr 1
  dsimp only at hcells hothers ⊢
  induction hcells with
  | nil => rfl
  | cons hcell _ ih =>
    obtain ⟨-, htext, hgap⟩ := hcell
    obtain ⟨hgapcomma, hothers⟩ := List.forall_mem_cons.mp hothers
    rw [textOf_cons, textOf_cons, ih hothers, htext, hgap.eq hgapcomma]

section Layouts
variable (parent : Node) (head : Text)

/-- What is around each of the children. -/
def layouts : Option Cell → List Cell → List Layout
  | _, [] => []
  | previous, c :: cells =>
    { leading := lead parent head previous c, trailing := trail parent c cells.head? } :: layouts (some c) cells

/-- What the gap behind a child leaves to the one after it, or else to the parent. -/
def rest (c : Cell) : Option Cell → Text
  | none => (Gap.splitTrailing c.gap).2
  | some d => (Gap.splitBetween c.gap { parent, left := c.node, right := d.node }).2

/-- The cells with their gaps put together from their halves. -/
def thin : List Cell → List Cell
  | [] => []
  | c :: cells => { c with gap := trail parent c cells.head? ++ rest parent c cells.head? } :: thin cells

/-- A child with what is around it. -/
def surrounded (l : Layout) (c : Cell) : Text := l.leading ++ c.text ++ l.trailing

theorem thinned_thin (cells : List Cell) : List.Forall₂
    (fun c c' => c.node = c'.node ∧ c.text = c'.text ∧ Gap.Thinned c.gap c'.gap) cells (thin parent cells) := by
  induction cells with
  | nil => exact .nil
  | cons c cells ih =>
    refine .cons ⟨rfl, rfl, trail parent c cells.head?, rest parent c cells.head?, ?_, rfl⟩ ih
    cases cells.head? with
    | none => exact Gap.halves_splitTrailing c.gap
    | some d => exact Gap.halves_splitBetween c.gap _

/-- The children with what is around them are all the halves but the outer ones. -/
theorem flatMap_surrounded (previous : Option Cell) {c last : Cell} {cells pre : List Cell}
    (hlast : c :: cells = pre ++ [last]) :
    (List.zipWith surrounded (layouts parent head previous (c :: cells)) (c :: cells)).flatten ++
        (Gap.splitTrailing last.gap).2 =
      lead parent head previous c ++ textOf (thin parent (c :: cells)) := by
  induction cells generalizing previous c pre with
  | nil =>
    obtain ⟨-, hlast⟩ := List.append_inj' (show [] ++ [c] = pre ++ [last] from hlast) rfl
    obtain rfl := List.singleton_inj.mp hlast
    simp [layouts, thin, surrounded, trail, rest]
  | cons d cells ih =>
    cases pre with
    | nil => cases hlast
    | cons _ pre =>
      obtain ⟨rfl, htail⟩ := List.cons.inj hlast
      have hnext : rest parent c (some d) = lead parent head (some c) d := rfl
      rw [layouts, thin, textOf_cons, List.head?_cons, List.zipWith_cons_cons, List.flatten_cons, List.append_assoc,
        ih (some c) htail, surrounded, hnext]
      simp only [List.append_assoc]

end Layouts

end Row

namespace CompilationUnit.Laid
variable {u : Units} {c : CompilationUnit} {n : Node} {q : Span} {r : Row}

/-- The text around each of the children is measured. -/
theorem mapM_around (h : c.Laid n q r) (hunit : u.get? q.file = some c) {pre cells : List Cell}
    (hcells : r.cells = pre ++ cells) :
    (cells.map (·.node)).mapM (Layout.around u) = .ok (Row.layouts n r.head pre.getLast? cells) := by
  induction cells generalizing pre with
  | nil => rfl
  | cons cell cells ih =>
    have hnext : r.cells = (pre ++ [cell]) ++ cells := by rw [hcells, List.append_assoc]; rfl
    have hrest := ih hnext
    rw [List.getLast?_concat] at hrest
    rw [List.map_cons, List.mapM_cons, h.around hunit hcells, hrest]
    rfl

end CompilationUnit.Laid

/-- The text of a node is parted among the node and the children from which layout is measured, which are cut out of it
where they stand: what is left to the node and what is around each child can be had, and put together they are the text
of the node, with at most one comma of each half of a gap left out, and without change where no gap holds a comma
outside comments. -/
theorem Layout.parted_text (u : Units) (c : CompilationUnit) (n : Node) (q : Span) (hunit : u.get? q.file = some c)
    (honce : c.root.Once) (habove : c.root.Encloses n q) (hmem : n ∈ c.root.preorder)
    (hordered : Layout.InOrder c.source n q) (hanchors : Layout.anchors n ≠ []) :
    ∃ (r r' : Row) (affixes : Layout) (layouts : List Layout),
      c.source.slice q.start q.stop = .ok r.text ∧ Layout.anchors n = r.cells.map (·.node) ∧
      Row.sits (q.start + r.head.size) r.cells ∧
      (∀ cell ∈ r.cells, ∃ s, cell.node.span = some s ∧ c.source.slice s.start s.stop = .ok cell.text) ∧
      Layout.affixes? c.source n = .ok (some affixes) ∧
      (Layout.anchors n).mapM (Layout.around u) = .ok layouts ∧
      affixes.leading ++ (List.zipWith Row.surrounded layouts r.cells).flatten ++ affixes.trailing = r'.text ∧
      r.Thinned r' ∧
      ((∀ g ∈ r.gaps, Gap.Segment.code ',' ∉ Gap.segments g) → r'.text = r.text) := by
  obtain ⟨r, h⟩ := hordered.exists_laid honce habove hmem
  have hne : r.cells ≠ [] := fun hnil => hanchors (by rw [h.anchors, hnil, List.map_nil])
  obtain ⟨first, cells, hfirst⟩ := List.exists_cons_of_ne_nil hne
  obtain ⟨pre, last, hlast⟩ := (List.eq_nil_or_concat r.cells).resolve_left hne
  rw [List.concat_eq_append] at hlast
  have haround := h.mapM_around hunit (List.nil_append r.cells).symm
  rw [← h.anchors] at haround
  have hthinned : r.Thinned
      ⟨(Gap.splitLeading n r.head).1 ++ (Gap.splitLeading n r.head).2, Row.thin n r.cells⟩ :=
    ⟨⟨_, _, Gap.halves_splitLeading n r.head, rfl⟩, Row.thinned_thin n r.cells⟩
  refine ⟨r, _, _, _, h.text, h.anchors, h.sits, ?_, h.affixes hlast, haround, ?_, hthinned, hthinned.text_eq⟩
  · intro cell hcell
    obtain ⟨pre, post, hcells⟩ := List.append_of_mem hcell
    obtain ⟨s, -, hs, -⟩ := h.child_place hcells
    exact ⟨s, hs, h.slice_child hcells hs⟩
  · have hall := Row.flatMap_surrounded n r.head none (hfirst.symm.trans hlast)
    rw [← hfirst] at hall
    rw [List.append_assoc]
    refine (congrArg _ hall).trans ?_
    simp [Row.text, Row.lead]

/-- The call `f(a /*,*/, b, c)`, whose second argument has a transparent place. -/
def remarkedCall : CompilationUnit where
  source := { name := "A.scala",
              text := ['f', '(', 'a', ' ', '/', '*', ',', '*', '/', ',', ' ', 'b', ',', ' ', 'c', ')'] }
  root := .mk (.built 4) (some (.range "A.scala" 0 16))
    (.apply (.letter 0 "f" 0) [.letter 1 "a" 2,
      .mk (.built 2) (some { Span.range "A.scala" 11 12 with transparent := true }) (.ident "b"), .letter 3 "c" 14])

/-- The second argument is part of the gap between its neighbours, in which one comma is outside comments on each side
of the division. -/
theorem parted_text_remarkedCall :
    Layout.anchors remarkedCall.root ≠ [] ∧
      ∃ (r r' : Row) (affixes : Layout) (layouts : List Layout),
        remarkedCall.source.slice 0 16 = .ok r.text ∧ r.cells.map (·.node.name?) = [some "f", some "a", some "c"] ∧
        Row.sits r.head.size r.cells ∧
        Layout.affixes? remarkedCall.source remarkedCall.root = .ok (some affixes) ∧
        (Layout.anchors remarkedCall.root).mapM (Layout.around (.single remarkedCall)) = .ok layouts ∧
        affixes.leading ++ (List.zipWith Row.surrounded layouts r.cells).flatten ++ affixes.trailing = r'.text ∧
        r.Thinned r' := by
  have hplaced : Node.WellPlaced remarkedCall.root := Node.wellPlaced_of_isWellPlaced (by cbv)
  have hids : remarkedCall.root.preorder.map (·.identity) = [.built 4, .built 0, .built 1, .built 2, .built 3] := by cbv
  have hsingle : remarkedCall.root.Single := Node.single_of_identities hids (by decide)
  have hspans : remarkedCall.root.children.filterMap (·.layoutSpan) =
      [.range "A.scala" 0 1, .range "A.scala" 2 3, .range "A.scala" 14 15] := rfl
  have hordered : Layout.InOrder remarkedCall.source remarkedCall.root (.range "A.scala" 0 16) :=
    Layout.inOrder_of_spans rfl hspans (by decide) (by decide) (by decide)
  have hanchors : (Layout.anchors remarkedCall.root).map (·.name?) = [some "f", some "a", some "c"] := rfl
  have hne : Layout.anchors remarkedCall.root ≠ [] := fun hnil => by
    rw [hnil] at hanchors
    cases hanchors
  obtain ⟨r, r', affixes, layouts, htext, hcells, hsits, -, haffixes, haround, hall, hthinned, -⟩ :=
    Layout.parted_text (.single remarkedCall) remarkedCall remarkedCall.root (.range "A.scala" 0 16) rfl hsingle.once
      (hplaced.within.encloses rfl) (Node.mem_preorder_self _) hordered hne
  refine ⟨hne, r, r', affixes, layouts, htext, ?_, by simpa [Span.range] using hsits, haffixes, haround, hall, hthinned⟩
  rw [← hanchors, hcells, List.map_map]
  rfl

end Reprint
