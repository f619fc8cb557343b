import Mathlib.Data.List.Forall2
import Reprint.Proofs.Cuts
import Reprint.Proofs.Runs
import Reprint.Proofs.Surroundings
/-!
The text of a node, child by child. A `Row` is that text, cut at the children from which layout is measured. Where
these stand exactly at their texts (`CompilationUnit.Laid`), each gap between two of them is measured from both sides
alike: a child gets its share of the gaps to its neighbours, and the node keeps the outer ones. Nothing is asked of
the rest of the tree but that the nodes above include the node and that no node occurs twice.
-/

namespace Reprint

/-- A child in the text of its parent, and what stands between it and the next child, or else the end. -/
structure Cell where
  node : Node
  text : Text
  gap : Text

/-- The text of a node, child by child. -/
structure Row where
  head : Text
  cells : List Cell

namespace Row

/-- The text of some cells. -/
def textOf (cells : List Cell) : Text := cells.flatMap fun c => c.text ++ c.gap

/-- The text of a row. -/
def text (r : Row) : Text := r.head ++ textOf r.cells

@[simp] theorem textOf_nil : textOf [] = [] := rfl

@[simp] theorem textOf_cons (c : Cell) (cells : List Cell) : textOf (c :: cells) = c.text ++ c.gap ++ textOf cells := by
  rw [textOf, List.flatMap_cons]
  rfl

@[simp] theorem textOf_append (cells cells' : List Cell) : textOf (cells ++ cells') = textOf cells ++ textOf cells' :=
  List.flatMap_append

/-- Whether the children stand where their texts are, the first one at `start`, if places are looked up by `place`. -/
def stands (place : Node → Option Span) (start : Nat) : List Cell → Bool
  | [] => true
  | c :: cells =>
    (place c.node).any (fun s => s.start == start && s.stop == start + c.text.size) &&
      stands place (start + (c.text ++ c.gap).size) cells

/-- Whether the children stand where their texts are, in the places from which layout is measured. -/
abbrev sits (start : Nat) (cells : List Cell) : Bool := stands Node.layoutSpan start cells

section Stands
variable {place : Node → Option Span} {start : Nat} {pre post cells : List Cell} {c : Cell}

theorem stands_append : stands place start (pre ++ post) = true ↔
    stands place start pre = true ∧ stands place (start + (textOf pre).size) post = true := by
  induction pre generalizing start with
  | nil => simp [stands]
  | cons c pre ih =>
    rw [List.cons_append, stands, stands, Bool.and_eq_true, Bool.and_eq_true, ih, textOf_cons,
      Text.size_append (c.text ++ c.gap), and_assoc, Nat.add_assoc]

/-- Each child stands where its text does. -/
theorem place_of_stands (h : stands place start (pre ++ c :: post) = true) :
    ∃ s, place c.node = some s ∧ s.start = start + (textOf pre).size ∧
      s.stop = start + (textOf pre).size + c.text.size := by
  obtain ⟨hc, -⟩ := Bool.and_eq_true_iff.mp (stands_append.mp h).2
  obtain ⟨s, hs, hplace⟩ := (Option.any_eq_true ..).mp hc
  simp only [Bool.and_eq_true, beq_iff_eq] at hplace
  exact ⟨s, hs, hplace⟩

theorem stands_of_sits (h : sits start cells = true) : stands Node.span start cells = true := by
  induction cells generalizing start with
  | nil => rfl
  | cons c cells ih =>
    obtain ⟨hc, hcells⟩ := Bool.and_eq_true_iff.mp h
    obtain ⟨s, hs, hplace⟩ := (Option.any_eq_true ..).mp hc
    have hspan := (Node.layoutSpan_eq_some_iff.mp hs).1
    exact Bool.and_eq_true_iff.mpr ⟨(Option.any_eq_true ..).mpr ⟨s, hspan, hplace⟩, ih hcells⟩

end Stands

/-! ### Children from which layout is measured -/

/-- The text ahead of the first child from which layout is measured. -/
def ahead : List Cell → Text
  | [] => []
  | c :: cells => if c.node.layoutSpan.isSome then [] else c.text ++ c.gap ++ ahead cells

/-- The children from which layout is measured. The others are part of the gaps between them. -/
def anchorCells : List Cell → List Cell
  | [] => []
  | c :: cells =>
    if c.node.layoutSpan.isSome then { c with gap := c.gap ++ ahead cells } :: anchorCells cells else anchorCells cells

/-- The row of the children from which layout is measured. -/
def anchored (r : Row) : Row := ⟨r.head ++ ahead r.cells, anchorCells r.cells⟩

section Anchored
variable {cells : List Cell} {c : Cell}

theorem ahead_append_anchorCells (cells : List Cell) : ahead cells ++ textOf (anchorCells cells) = textOf cells := by
  induction cells with
  | nil => rfl
  | cons c cells ih =>
    rw [ahead, anchorCells]
    split
    · rw [textOf_cons, textOf_cons, ← ih]
      simp only [List.nil_append, List.append_assoc]
    · rw [List.append_assoc, ih, textOf_cons]

theorem text_anchored (r : Row) : r.anchored.text = r.text := by
  rw [text, text, anchored, List.append_assoc, ahead_append_anchorCells]

theorem node_anchorCells (cells : List Cell) :
    (anchorCells cells).map (·.node) = (cells.map (·.node)).filter (·.layoutSpan.isSome) := by
  induction cells with
  | nil => rfl
  | cons c cells ih =>
    rw [anchorCells, List.map_cons]
    split
    · rw [List.map_cons, List.filter_cons_of_pos ‹_›, ih]
    · rw [List.filter_cons_of_neg ‹_›, ih]

theorem sits_anchorCells {start : Nat} (h : stands Node.span start cells = true) :
    sits (start + (ahead cells).size) (anchorCells cells) = true := by
  induction cells generalizing start with
  | nil => rfl
  | cons c cells ih =>
    obtain ⟨hc, hcells⟩ := Bool.and_eq_true_iff.mp h
    have hrest := ih hcells
    rw [ahead, anchorCells]
    split
    · next hsome =>
      obtain ⟨t, ht⟩ := Option.isSome_iff_exists.mp hsome
      rw [(Node.layoutSpan_eq_some_iff.mp ht).1] at hc
      rw [Text.size_nil, Nat.add_zero, sits, stands, ht]
      refine Bool.and_eq_true_iff.mpr ⟨hc, ?_⟩
      rwa [← List.append_assoc, Text.size_append (c.text ++ c.gap), ← Nat.add_assoc]
    · rwa [Text.size_append, ← Nat.add_assoc]

end Anchored

/-! ### Shares -/

section Shares
variable (parent : Node) (head : Text)

/-- What leads a child, given the one before it. -/
def lead : Option Cell → Cell → Text
  | none, _ => (Gap.splitLeading parent head).2
  | some l, c => (Gap.splitBetween l.gap { parent, left := l.node, right := c.node }).2

/-- What trails a child, given the one behind it. -/
def trail (c : Cell) : Option Cell → Text
  | none => (Gap.splitTrailing c.gap).1
  | some r => (Gap.splitBetween c.gap { parent, left := c.node, right := r.node }).1

/-- The text that a child brings along. -/
def share (previous : Option Cell) (c : Cell) (next : Option Cell) : Text :=
  lead parent head previous c ++ c.text ++ trail parent c next

/-- The children with the texts they bring along. -/
def shares : Option Cell → List Cell → List (Node × Text)
  | _, [] => []
  | previous, c :: cells => (c.node, share parent head previous c cells.head?) :: shares (some c) cells

theorem mem_shares {x : Node × Text} {previous : Option Cell} {cells : List Cell}
    (h : x ∈ shares parent head previous cells) : ∃ pre c post, cells = pre ++ c :: post ∧
      x = (c.node, share parent head (pre.getLast?.or previous) c post.head?) := by
  induction cells generalizing previous with
  | nil => cases h
  | cons c cells ih =>
    rcases List.mem_cons.mp h with rfl | h
    · exact ⟨[], c, cells, rfl, rfl⟩
    · obtain ⟨pre, d, post, rfl, rfl⟩ := ih h
      refine ⟨c :: pre, d, post, rfl, ?_⟩
      cases hpre : pre.getLast? with
      | none =>
        rw [List.getLast?_eq_none_iff] at hpre
        subst hpre
        rfl
      | some l => rw [List.getLast?_cons, hpre]; rfl

end Shares

end Row

/-- A node of a base tree whose text is a row of the children from which layout is measured. -/
structure CompilationUnit.Laid (c : CompilationUnit) (n : Node) (q : Span) (r : Row) : Prop where
  once : c.root.Once
  above : c.root.Encloses n q
  mem : n ∈ c.root.preorder
  place : n.layoutSpan = some q
  anchors : Layout.anchors n = r.cells.map (·.node)
  file : ∀ cell ∈ r.cells, ∀ s, cell.node.span = some s → s.file = q.file
  text : c.source.slice q.start q.stop = .ok r.text
  sits : Row.sits (q.start + r.head.size) r.cells

/-- The children from which layout is measured are those with a place to measure from. -/
theorem Layout.filterMap_anchors (n : Node) :
    (anchors n).filterMap (·.layoutSpan) = n.children.filterMap (·.layoutSpan) := by
  rw [anchors, List.filterMap_filter]
  congr
  funext b
  cases b.layoutSpan <;> rfl

/-- A node whose place can be cut out of the source, and so can those of the children from which layout is measured,
which stand one behind the other within it. -/
structure Layout.InOrder (source : Source) (n : Node) (q : Span) : Prop where
  place : n.layoutSpan = some q
  inside : ∀ s ∈ n.children.filterMap (·.layoutSpan), q.includes s
  forward : (n.children.filterMap (·.layoutSpan)).Pairwise fun s t => s.stop ≤ t.start
  fits : ∀ s ∈ q :: n.children.filterMap (·.layoutSpan), ∃ t, source.slice s.start s.stop = .ok t

theorem Layout.inOrder_of_spans {source : Source} {n : Node} {q : Span} {spans : List Span}
    (hplace : n.layoutSpan = some q) (hspans : n.children.filterMap (·.layoutSpan) = spans)
    (hinside : ∀ s ∈ spans, q.includes s) (hforward : spans.Pairwise fun s t => s.stop ≤ t.start)
    (hfits : ∀ s ∈ q :: spans, s.start ≤ s.stop ∧ source.text.isBoundary s.start ∧ source.text.isBoundary s.stop) :
    InOrder source n q := by
  subst hspans
  exact ⟨hplace, hinside, hforward, fun s hs => Source.exists_slice_iff.mpr (hfits s hs)⟩

/-- Nodes that stand one behind the other cut a slice into cells. -/
theorem Row.exists_cells {source : Source} {start stop : Nat} {ns : List Node}
    (hplaces : ∀ m ∈ ns, ∃ s, m.layoutSpan = some s ∧ start ≤ s.start ∧ s.stop ≤ stop ∧
      ∃ t, source.slice s.start s.stop = .ok t)
    (hforward : (ns.filterMap (·.layoutSpan)).Pairwise fun s t => s.stop ≤ t.start)
    (hslice : ∃ t, source.slice start stop = .ok t) :
    ∃ r : Row, ns = r.cells.map (·.node) ∧ source.slice start stop = .ok r.text ∧
      sits (start + r.head.size) r.cells := by
  induction ns generalizing start with
  | nil =>
    obtain ⟨t, ht⟩ := hslice
    exact ⟨⟨t, []⟩, rfl, by rw [text, textOf_nil, List.append_nil]; exact ht, rfl⟩
  | cons m ns ih =>
    obtain ⟨-, hstart, hstop⟩ := Source.exists_slice_iff.mp hslice
    obtain ⟨s, hs, hahead, hbehind, t, ht⟩ := hplaces m (List.mem_cons_self ..)
    obtain ⟨-, hsstart, hsstop⟩ := Source.exists_slice_iff.mp ⟨t, ht⟩
    obtain ⟨head, hhead⟩ := Source.exists_slice_iff.mpr ⟨hahead, hstart, hsstart⟩
    rw [List.filterMap_cons_some hs, List.pairwise_cons] at hforward
    have hrest : ∀ d ∈ ns, ∃ s', d.layoutSpan = some s' ∧ s.stop ≤ s'.start ∧ s'.stop ≤ stop ∧
        ∃ t, source.slice s'.start s'.stop = .ok t := by
      intro d hd
      obtain ⟨s', hs', -, hbehind', hfits⟩ := hplaces d (List.mem_cons_of_mem _ hd)
      exact ⟨s', hs', hforward.1 s' (List.mem_filterMap.mpr ⟨d, hd, hs'⟩), hbehind', hfits⟩
    obtain ⟨r, hnodes, htext, hsits⟩ := ih hrest hforward.2 (Source.exists_slice_iff.mpr ⟨hbehind, hsstop, hstop⟩)
    refine ⟨⟨head, ⟨m, t, r.head⟩ :: r.cells⟩, by rw [hnodes]; rfl, ?_, ?_⟩
    · rw [text, textOf_cons]
      dsimp only
      rw [List.append_assoc t, ← text]
      exact Source.slice_append hhead (Source.slice_append ht htext)
    · have hsize := Source.size_of_slice hhead
      have hsize' := Source.size_of_slice ht
      simp only [stands, hs, Option.any_some, Text.size_append, Bool.and_eq_true, beq_iff_eq]
      refine ⟨⟨by omega, by omega⟩, ?_⟩
      rwa [show start + head.size + (t.size + r.head.size) = s.stop + r.head.size by omega]

/-- A node with its children in order is laid out as a row. -/
theorem Layout.InOrder.exists_laid {c : CompilationUnit} {n : Node} {q : Span} (h : InOrder c.source n q)
    (honce : c.root.Once) (habove : c.root.Encloses n q) (hmem : n ∈ c.root.preorder) : ∃ r, c.Laid n q r := by
  have hplaced : ∀ m ∈ anchors n, ∃ s, m.layoutSpan = some s ∧ s ∈ n.children.filterMap (·.layoutSpan) := by
    intro m hm
    obtain ⟨hchild, hsome⟩ := List.mem_filter.mp hm
    obtain ⟨s, hs⟩ := Option.isSome_iff_exists.mp hsome
    exact ⟨s, hs, List.mem_filterMap.mpr ⟨m, hchild, hs⟩⟩
  have hplaces : ∀ m ∈ anchors n, ∃ s, m.layoutSpan = some s ∧ q.start ≤ s.start ∧ s.stop ≤ q.stop ∧
      ∃ t, c.source.slice s.start s.stop = .ok t := by
    intro m hm
    obtain ⟨s, hs, hin⟩ := hplaced m hm
    obtain ⟨-, hstart, hstop⟩ := Span.includes_iff.mp (h.inside s hin)
    exact ⟨s, hs, hstart, hstop, h.fits s (List.mem_cons_of_mem _ hin)⟩
  have hforward := h.forward
  rw [← filterMap_anchors] at hforward
  obtain ⟨r, hnodes, htext, hsits⟩ := Row.exists_cells hplaces hforward (h.fits q (List.mem_cons_self ..))
  refine ⟨r, ⟨honce, habove, hmem, h.place, hnodes, ?_, htext, hsits⟩⟩
  intro cell hcell s hs
  obtain ⟨s', hs', hin⟩ := hplaced cell.node (by rw [hnodes]; exact List.mem_map.mpr ⟨cell, hcell, rfl⟩)
  cases hs.symm.trans (Node.layoutSpan_eq_some_iff.mp hs').1
  exact (Span.includes_iff.mp (h.inside s hin)).1.symm

theorem Layout.gap_eq {source : Source} {a x b : Text} {start stop : Nat} (h : source.text = a ++ (x ++ b))
    (hstart : start = a.size) (hstop : stop = a.size + x.size) : gap source start stop = .ok x := by
  subst hstart hstop
  rw [gap, Source.gap]
  by_cases hx : x = []
  · rw [hx, if_neg (by simp)]
  · have hpos : 0 < x.size := Nat.pos_of_ne_zero (mt Text.size_eq_zero_iff.mp hx)
    have hslice : source.slice a.size (a.size + x.size) = .ok x :=
      Source.slice_eq_ok_iff.mpr ⟨a, b, by rw [h, List.append_assoc], rfl, Text.size_append a x⟩
    rw [if_pos (by omega), hslice]

namespace CompilationUnit.Laid
open Node

section Base
variable {u : Units} {c : CompilationUnit} {n : Node} {q : Span} {r : Row} {pre post : List Cell} {cell : Cell}

theorem span (h : c.Laid n q r) : n.span = some q := (layoutSpan_eq_some_iff.mp h.place).1

theorem child (h : c.Laid n q r) (hcells : r.cells = pre ++ cell :: post) : cell.node ∈ n.children := by
  have hmem : cell.node ∈ Layout.anchors n := by
    rw [h.anchors, hcells]
    simp
  exact (List.mem_filter.mp hmem).1

/-- Where a child stands. -/
theorem child_place (h : c.Laid n q r) (hcells : r.cells = pre ++ cell :: post) :
    ∃ s, cell.node.layoutSpan = some s ∧ cell.node.span = some s ∧ s.file = q.file ∧
      s.start = q.start + (r.head ++ Row.textOf pre).size ∧ s.stop = s.start + cell.text.size := by
  obtain ⟨s, hs, hstart, hstop⟩ := Row.place_of_stands (hcells ▸ h.sits)
  have hspan := (layoutSpan_eq_some_iff.mp hs).1
  refine ⟨s, hs, hspan, h.file cell (by rw [hcells]; simp) s hspan, ?_, ?_⟩
  · rw [hstart, Text.size_append, Nat.add_assoc]
  · rw [hstop, hstart]

/-- The text of the unit, cut at a child. -/
theorem source_text (h : c.Laid n q r) (hcells : r.cells = pre ++ cell :: post) : ∃ a b : Text,
    a.size = q.start ∧ q.stop = q.start + r.text.size ∧ c.source.text =
      a ++ (r.head ++ (Row.textOf pre ++ (cell.text ++ (cell.gap ++ (Row.textOf post ++ b))))) := by
  obtain ⟨a, b, htext, hstart, hstop⟩ := Source.slice_eq_ok_iff.mp h.text
  refine ⟨a, b, hstart, by rw [← hstop, Text.size_append, hstart], ?_⟩
  rw [htext, Row.text, hcells, Row.textOf_append, Row.textOf_cons]
  simp only [List.append_assoc]

theorem includes (h : c.Laid n q r) (hcells : r.cells = pre ++ cell :: post) {s : Span}
    (hs : cell.node.span = some s) : q.includes s := by
  obtain ⟨t, -, ht, hfile, hstart, hstop⟩ := h.child_place hcells
  cases hs.symm.trans ht
  obtain ⟨-, -, -, hqstop, -⟩ := h.source_text hcells
  refine Span.includes_iff.mpr ⟨hfile.symm, by omega, ?_⟩
  rw [hstop, hstart, hqstop, Row.text, hcells]
  simp only [Text.size_append, Row.textOf_append, Row.textOf_cons]
  omega

theorem tree (hunit : u.get? q.file = some c) : u.tree? q.file = some c.root := by
  rw [Units.tree?, hunit, Option.map_some]

theorem parent (h : c.Laid n q r) (hunit : u.get? q.file = some c) (hcells : r.cells = pre ++ cell :: post) :
    u.parent? cell.node = some n := by
  obtain ⟨s, -, hs, hfile, -, -⟩ := h.child_place hcells
  exact Units.parent?_of_child (by rw [hfile, tree hunit]) (h.above.mono (h.includes hcells hs)) h.once h.mem
    (h.child hcells) hs

theorem gap_first (h : c.Laid n q r) (hcells : r.cells = cell :: post) {s : Span} (hs : cell.node.span = some s) :
    Layout.gap c.source q.start s.start = .ok r.head := by
  obtain ⟨a, b, ha, -, htext⟩ := h.source_text (show r.cells = [] ++ cell :: post from hcells)
  obtain ⟨t, -, ht, -, hstart, -⟩ := h.child_place (show r.cells = [] ++ cell :: post from hcells)
  cases hs.symm.trans ht
  refine Layout.gap_eq (a := a) htext ha.symm ?_
  rw [hstart, ha]
  simp

theorem gap_between (h : c.Laid n q r) {next : Cell} (hcells : r.cells = pre ++ cell :: next :: post) {s t : Span}
    (hs : cell.node.span = some s) (ht : next.node.span = some t) :
    Layout.gap c.source s.stop t.start = .ok cell.gap := by
  obtain ⟨a, b, ha, -, htext⟩ := h.source_text hcells
  obtain ⟨s', -, hs', -, hstart, hstop⟩ := h.child_place hcells
  cases hs.symm.trans hs'
  have hcells' : r.cells = (pre ++ [cell]) ++ next :: post := by rw [hcells, List.append_assoc]; rfl
  obtain ⟨t', -, ht', -, hstart', -⟩ := h.child_place hcells'
  cases ht.symm.trans ht'
  refine Layout.gap_eq (a := a ++ (r.head ++ (Row.textOf pre ++ cell.text)))
    (b := Row.textOf (next :: post) ++ b) ?_ ?_ ?_
  · rw [htext]
    simp only [List.append_assoc]
  · rw [hstop, hstart]
    simp only [Text.size_append, ha]
    omega
  · rw [hstart']
    simp only [Text.size_append, Row.textOf_append, Row.textOf_cons, Row.textOf_nil, Text.size_nil, ha]
    omega

theorem gap_last (h : c.Laid n q r) (hcells : r.cells = pre ++ [cell]) {s : Span} (hs : cell.node.span = some s) :
    Layout.gap c.source s.stop q.stop = .ok cell.gap := by
  obtain ⟨a, b, ha, hqstop, htext⟩ := h.source_text hcells
  obtain ⟨t, -, ht, -, hstart, hstop⟩ := h.child_place hcells
  cases hs.symm.trans ht
  refine Layout.gap_eq (a := a ++ (r.head ++ (Row.textOf pre ++ cell.text))) (b := b) ?_ ?_ ?_
  · rw [htext]
    simp only [List.append_assoc, Row.textOf_nil, List.nil_append]
  · rw [hstop, hstart]
    simp only [Text.size_append, ha]
    omega
  · rw [hqstop, Row.text, hcells]
    simp only [Text.size_append, Row.textOf_append, Row.textOf_cons, Row.textOf_nil, Text.size_nil, ha]
    omega

theorem leadingOf (h : c.Laid n q r) (hcells : r.cells = pre ++ cell :: post) {s : Span}
    (hs : cell.node.span = some s) :
    Layout.leadingOf c.source n q (if pre.length = 0 then none else (Layout.anchors n)[pre.length - 1]?) cell.node s =
      .ok (Row.lead n r.head pre.getLast? cell) := by
  rw [h.anchors]
  rcases List.eq_nil_or_concat pre with rfl | ⟨pre, p, rfl⟩
  · rw [List.length_nil, if_pos rfl, Layout.leadingOf, h.gap_first hcells hs]
    rfl
  · rw [List.concat_eq_append, List.append_assoc] at hcells
    obtain ⟨t, -, ht, -⟩ := h.child_place hcells
    have hp : (r.cells.map (·.node))[(pre.concat p).length - 1]? = some p.node := by rw [hcells]; simp
    rw [if_neg (by simp), hp, Layout.leadingOf, ht, Option.map_some, Option.getD_some, h.gap_between hcells ht hs,
      List.concat_eq_append, List.getLast?_concat]
    rfl

theorem trailingOf (h : c.Laid n q r) (hcells : r.cells = pre ++ cell :: post) {s : Span}
    (hs : cell.node.span = some s) :
    Layout.trailingOf c.source n q (Layout.anchors n)[pre.length + 1]? cell.node s =
      .ok (Row.trail n cell post.head?) := by
  rw [h.anchors]
  cases post with
  | nil =>
    have hnone : (r.cells.map (·.node))[pre.length + 1]? = none := by rw [hcells]; simp
    rw [hnone, Layout.trailingOf, h.gap_last hcells hs]
    rfl
  | cons d post =>
    have hd : (r.cells.map (·.node))[pre.length + 1]? = some d.node := by rw [hcells]; simp
    have hcells' : r.cells = (pre ++ [cell]) ++ d :: post := by rw [hcells, List.append_assoc]; rfl
    obtain ⟨t, -, ht, -⟩ := h.child_place hcells'
    rw [hd, Layout.trailingOf, ht, Option.map_some, Option.getD_some, h.gap_between hcells hs ht]
    rfl

/-- A child is found where it stands among its siblings. -/
theorem findIdx (h : c.Laid n q r) (hcells : r.cells = pre ++ cell :: post) :
    (Layout.anchors n).findIdx? (·.same cell.node) = some pre.length := by
  have hapart := (pairwise_children (h.once.sub h.mem)).filter (·.layoutSpan.isSome)
  rw [show n.children.filter (·.layoutSpan.isSome) = r.cells.map (·.node) from h.anchors, hcells, List.map_append,
    List.map_cons] at hapart
  obtain ⟨s, -, hs, -⟩ := h.child_place hcells
  have hnone : (pre.map (·.node)).findIdx? (·.same cell.node) = none := by
    refine List.findIdx?_eq_none_iff.mpr fun m hm => Bool.eq_false_iff.mpr fun hsame => ?_
    exact (List.pairwise_append.mp hapart).2.2 m hm cell.node (List.mem_cons_self ..) (.inr (by rw [hs]; rfl))
      (same_iff.mp hsame)
  rw [h.anchors, hcells, List.map_append, List.map_cons, List.findIdx?_append, hnone, List.findIdx?_cons, same_refl]
  simp

/-- Each child gets its share of the gaps on both sides. -/
theorem around (h : c.Laid n q r) (hunit : u.get? q.file = some c) (hcells : r.cells = pre ++ cell :: post) :
    Layout.around u cell.node =
      .ok { leading := Row.lead n r.head pre.getLast? cell, trailing := Row.trail n cell post.head? } := by
  obtain ⟨s, hlayout, hs, hfile, -, -⟩ := h.child_place hcells
  rw [Layout.around_eq_within (by rw [hfile, hunit]) hlayout (h.parent hunit hcells) h.place]
  simp only [Layout.within, h.findIdx hcells, h.leadingOf hcells hs, h.trailingOf hcells hs]
  rfl

/-- What is left to the node itself: its text ahead of the first child and behind the last one. -/
theorem affixes (h : c.Laid n q r) (hcells : r.cells = pre ++ [cell]) :
    Layout.affixes? c.source n = .ok (some
      { leading := (Gap.splitLeading n r.head).1, trailing := (Gap.splitTrailing cell.gap).2 }) := by
  obtain ⟨t, htlayout, ht, -⟩ := h.child_place hcells
  obtain ⟨first, rest, hfirst⟩ : ∃ first rest, r.cells = first :: rest := by
    cases pre with
    | nil => exact ⟨cell, [], hcells⟩
    | cons first rest => exact ⟨first, rest ++ [cell], hcells⟩
  obtain ⟨s, hslayout, hs, -⟩ := h.child_place (show r.cells = [] ++ first :: rest from hfirst)
  have hhead : (n.children.filterMap (·.layoutSpan)).head? = some s := by
    rw [← Layout.filterMap_anchors, h.anchors, hfirst, List.map_cons, List.filterMap_cons_some hslayout,
      List.head?_cons]
  have hlast : (n.children.filterMap (·.layoutSpan)).getLast? = some t := by
    rw [← Layout.filterMap_anchors, h.anchors, hcells, List.map_append, List.map_singleton, List.filterMap_append,
      List.filterMap_cons_some htlayout, List.filterMap_nil, List.getLast?_concat]
  simp only [Layout.affixes?, h.place, hhead, hlast, h.gap_first hfirst hs, h.gap_last hcells ht]
  rfl

/-- A node in the slot of a laid out one is paired with it. -/
theorem counterpart (h : c.Laid n q r) (hdistinct : c.root.Distinct) (hunit : u.get? q.file = some c) {m : Node}
    (hm : m.sameSlot n) : u.counterpart? m = some n :=
  Units.counterpart?_of_encloses h.above hdistinct h.mem h.span (tree hunit) hm

/-- A node in the slot of a child is paired with that child. -/
theorem counterpart_child (h : c.Laid n q r) (hdistinct : c.root.Distinct) (hunit : u.get? q.file = some c)
    (hcells : r.cells = pre ++ cell :: post) {m : Node} (hm : m.sameSlot cell.node) :
    u.counterpart? m = some cell.node := by
  obtain ⟨s, -, hs, hfile, -⟩ := h.child_place hcells
  refine Units.counterpart?_of_mem_atRange hdistinct hs (by rw [hfile, tree hunit]) hm fun t hst => ?_
  have hin : q.includes t :=
    Span.includes_trans (h.includes hcells hs) (Span.includes_of_sameRange (Span.sameRange_symm hst))
  refine (h.above.mono hin).mem_atRange h.mem ?_
  have hself : cell.node ∈ cell.node.atRange t :=
    mem_atRange_self (standsAt_iff.mpr ⟨s, hs, Span.sameRange_symm hst⟩)
  rw [atRange_eq, h.span, Option.all_some, if_pos hin]
  exact List.mem_append_right _ (List.mem_flatMap.mpr ⟨_, h.child hcells, hself⟩)

theorem slice_child (h : c.Laid n q r) (hcells : r.cells = pre ++ cell :: post) {s : Span}
    (hs : cell.node.span = some s) : c.source.slice s.start s.stop = .ok cell.text := by
  obtain ⟨a, b, ha, -, htext⟩ := h.source_text hcells
  obtain ⟨t, -, ht, hfile, hstart, hstop⟩ := h.child_place hcells
  cases hs.symm.trans ht
  refine Source.slice_eq_ok_iff.mpr ⟨a ++ (r.head ++ Row.textOf pre), cell.gap ++ (Row.textOf post ++ b), ?_, ?_, ?_⟩
  · rw [htext]
    simp only [List.append_assoc]
  · rw [hstart, Text.size_append, ha]
  · rw [hstop, hstart, Text.size_append, Text.size_append, ha]

end Base

/-! ### Printing -/

section Printing
variable {p : Printer} {c : CompilationUnit} {n : Node} {q : Span} {r : Row} {pre post : List Cell} {cell : Cell}
  {edited m : Node} {changed : NodeSet} {ds : List Diagnostic}

theorem sourceOf {s : Span} (hunit : p.units.get? q.file = some c) (hfile : s.file = q.file) :
    p.sourceOf s = .ok c.source := by
  rw [Printer.sourceOf, Units.source?, hfile, hunit]
  rfl

/-- A child that has not changed is printed with the text it brings along. -/
theorem printIn_child (h : c.Laid n q r) (hunit : p.units.get? q.file = some c)
    (hcells : r.cells = pre ++ cell :: post) (hm : p.units.counterpart? m = some cell.node)
    (hpristine : m.isPristine changed cell.node = true) (ds : List Diagnostic) :
    Yields (p.printIn changed (some n) m) ds
      (.mk (Row.lead n r.head pre.getLast? cell) cell.text (Row.trail n cell post.head?) false) ds := by
  obtain ⟨s, -, hs, hfile, -⟩ := h.child_place hcells
  have hslice : p.sliceOf s = .ok cell.text := by
    rw [Printer.sliceOf, sourceOf hunit hfile]
    dsimp only [bind, Except.bind]
    rw [h.slice_child hcells hs]
    rfl
  rw [Printer.printIn]
  simp only [hm, hs, hpristine, if_true]
  refine Yields.bind_iff.mpr ⟨_, ds, Yields.lift_iff.mpr ⟨h.around hunit hcells, rfl⟩, ?_⟩
  refine Yields.bind_iff.mpr ⟨_, ds, Yields.lift_iff.mpr ⟨hslice, rfl⟩, ?_⟩
  refine Yields.lift_iff.mpr ⟨?_, rfl⟩
  simp only [Printer.relocate, h.parent hunit hcells, same_refl, Bool.true_or, if_true]

/-- Children that have not changed are printed one after the other with the texts they bring along. -/
theorem print_children (h : c.Laid n q r) (hunit : p.units.get? q.file = some c) {cells : List Cell}
    (hcells : r.cells = pre ++ cells) {ms : List Node}
    (hms : List.Forall₂ (fun m cell => p.units.counterpart? m = some cell.node ∧
      m.isPristine changed cell.node = true) ms cells) (ds : List Diagnostic) :
    ∃ fs : List (Node × Fragment),
      Yields (ms.mapM fun m => do return (m, ← p.printIn changed (some n) m)) ds fs ds ∧
      (fs.map fun x => (x.1, x.2.text)) = ms.zip ((Row.shares n r.head pre.getLast? cells).map (·.2)) ∧
      ∀ x ∈ fs, x.2.fresh = false := by
  induction hms generalizing pre with
  | nil => exact ⟨[], Yields.mapM_nil_iff.mpr ⟨rfl, rfl⟩, rfl, by simp⟩
  | @cons m cell ms cells hm _ ih =>
    have hnext : r.cells = (pre ++ [cell]) ++ cells := by rw [hcells, List.append_assoc]; rfl
    obtain ⟨fs, hfs, htexts, hfresh⟩ := ih hnext
    have hprint := h.printIn_child hunit hcells hm.1 hm.2 ds
    refine ⟨(m, _) :: fs, .mapM_keyed_cons hprint hfs, ?_, ?_⟩
    · rw [List.map_cons, htexts, List.getLast?_concat]
      rfl
    · exact List.forall_mem_cons.mpr ⟨rfl, hfresh⟩

/-- A node in the place of a laid out one is printed as its children, between what is left to the node itself. -/
theorem yields_print (h : c.Laid n q r) (hunit : p.units.get? q.file = some c)
    (hcp : p.units.counterpart? edited = some n) (hpristine : edited.isPristine changed n = false)
    (hne : edited.children ≠ []) (hcells : r.cells = pre ++ [cell]) {l : Layout}
    (hl : Layout.around p.units n = .ok l) {fs : List (Node × Fragment)}
    (hfs : Yields (edited.children.mapM fun m => do return (m, ← p.printIn changed (some n) m)) ds fs ds) :
    Yields (p.print changed edited) ds (.mk l.leading
      (Printer.addChildren edited (c.source.text.indentationAt q.start)
        (p.style.lineEnding.text ++ p.childIndent c.source n (c.source.text.indentationAt q.start)) none
        (Gap.splitLeading n r.head).1 fs ++ (Gap.splitTrailing cell.gap).2) l.trailing false) ds := by
  have hempty : edited.children.isEmpty = false := by simpa using hne
  have hattach := mapM_attach edited.children fun m => do return (m, ← p.printIn changed (some n) m)
  rw [Printer.print, Printer.printIn]
  simp only [hcp, h.span, hpristine, hattach, hempty, Bool.false_eq_true, if_false]
  refine Yields.bind_iff.mpr ⟨l, ds, Yields.lift_iff.mpr ⟨hl, rfl⟩, ?_⟩
  refine Yields.bind_iff.mpr ⟨_, ds, Yields.lift_iff.mpr ⟨sourceOf hunit rfl, rfl⟩, ?_⟩
  refine Yields.bind_iff.mpr ⟨_, ds, Yields.lift_iff.mpr ⟨h.affixes hcells, rfl⟩, ?_⟩
  refine Yields.bind_iff.mpr ⟨fs, ds, hfs, ?_⟩
  exact Yields.bind_iff.mpr ⟨_, ds, Yields.pure_iff.mpr ⟨rfl, rfl⟩, Yields.lift_iff.mpr ⟨rfl, rfl⟩⟩

end Printing

end CompilationUnit.Laid

end Reprint
