import Mathlib
import Reprint.Proofs.Lettering
import Reprint.Proofs.Thinning
/-!
Nodes that got other children. The node is one with names below it, and a node in its place has children that it had,
in any order and as often as you like, and new ones. An old child gives its share of the text, or only its name if it
is transparent, and a new one what the fallback printer makes of it. Main statement: if discovery takes notice, the
text is put together from what the children give to it (`Revised.rewrite?_of_gives`, and `Revised.rewrite?_eq` where
layout is measured from all of the old children). If it does not, the children are what they were (`Revised.unnoticed`).
-/

namespace Reprint

namespace Printer

/-- A child with its text, which was printed from scratch if the child has no place. -/
def brought (x : Node × Text) : Node × Fragment := (x.1, { center := x.2, fresh := x.1.span.isNone })

@[simp] theorem text_brought (x : Node × Text) : (brought x).2.text = x.2 := by simp [brought, Fragment.text]

/-- Of the children only their texts count, and whether they were printed from scratch. -/
theorem addChildren_brought {parent : Node} {indent lineBreak out : Text} {previous : Option Node}
    {fs : List (Node × Fragment)} {fills : List (Node × Text)} (htexts : (fs.map fun x => (x.1, x.2.text)) = fills)
    (hfresh : ∀ x ∈ fs, x.2.fresh = x.1.span.isNone) :
    addChildren parent indent lineBreak previous out fs =
      addChildren parent indent lineBreak previous out (fills.map brought) := by
  subst htexts
  induction fs generalizing previous out with
  | nil => cases previous <;> rfl
  | cons x fs ih =>
    have hx : addChild parent indent lineBreak previous out x.1 x.2 =
        addChild parent indent lineBreak previous out x.1 (brought (x.1, x.2.text)).2 := by
      rw [addChild, addChild, text_brought, hfresh x (List.mem_cons_self ..)]
      rfl
    rw [List.map_cons, List.map_cons, addChildren, hx, ih fun y hy => hfresh y (List.mem_cons_of_mem _ hy)]
    rfl

/-- A first child that has a place stands where the parent begins. -/
theorem addChildren_first {parent : Node} {indent lineBreak out : Text} {x : Node × Text} {l : List (Node × Text)}
    (hx : x.1.span.isSome) : addChildren parent indent lineBreak none out ((x :: l).map brought) =
      addChildren parent indent lineBreak (some x.1) (out ++ x.2) (l.map brought) := by
  have hfresh : (brought x).2.fresh = false := by simpa [brought, Option.isSome_iff_ne_none] using hx
  have hfirst : addChild parent indent lineBreak none out x.1 (brought x).2 = out ++ x.2 := by
    rw [addChild, expected?, hfresh, text_brought]
    simp
  exact congrArg (addChildren parent indent lineBreak (some x.1) · (l.map brought)) hfirst

end Printer

/-- A unit of one node with names below it: the node is written as a row from the first character of the text to the
last one. -/
structure CompilationUnit.Inscribed (c : CompilationUnit) (q : Span) (r : Row) : Prop where
  place : c.root.layoutSpan = some q
  whole : q.start = 0 ∧ q.stop = c.source.text.size
  children : c.root.children = r.cells.map (·.node)
  text : c.source.text = r.text
  sits : Row.sits r.head.size r.cells
  names : ∀ cell ∈ r.cells, cell.node.isName = true ∧ cell.text = cell.node.inscription
  file : ∀ cell ∈ r.cells, ∀ s, cell.node.span = some s → s.file = q.file
  single : c.root.Single

namespace CompilationUnit.Inscribed
open Node

section Inscribed
variable {c : CompilationUnit} {q : Span} {r : Row}

theorem lettered (h : c.Inscribed q r) : c.Lettered q r where
  place := h.place
  whole := h.whole
  children := h.children
  text := h.text
  stands := Row.stands_of_sits h.sits
  names := h.names
  file := h.file
  single := h.single

theorem written (h : c.Inscribed q r) : c.Written c.root q r where
  mem := c.root.mem_preorder_self
  place := h.place
  children := h.children
  text := by
    rw [← h.text]
    exact Source.slice_eq_ok_iff.mpr ⟨[], [], (List.append_nil _).symm, h.whole.1.symm, h.whole.2.symm⟩
  sits := by
    rw [h.whole.1, Nat.zero_add]
    exact h.sits

theorem name_child (h : c.Inscribed q r) {b : Node} (hb : b ∈ c.root.children) : b.isName = true ∧ b.span.isSome :=
  h.lettered.name_child hb

theorem span_child (h : c.Inscribed q r) {b : Node} (hb : b ∈ c.root.children) : b.span ≠ none :=
  h.lettered.span_child hb

theorem sharing {edited : Node} (hc : c.Inscribed q r)
    (hroot : edited.identity ∉ (c.root :: c.root.children).map identity)
    (heach : ∀ a ∈ edited.children,
      a ∈ c.root.children ∨ (a.isName = true ∧ a.identity ∉ (c.root :: c.root.children).map identity)) :
    Sharing edited c.root :=
  hc.lettered.sharing hroot heach

end Inscribed

end CompilationUnit.Inscribed

/-! ### Other children -/

theorem Node.childrenChanged_of_children_eq {n b : Node} (h : n.children = b.children) : n.childrenChanged b = false :=
  childrenChanged_eq_false_iff.mpr ⟨by rw [h], fun i x y hx hy => by
    rw [h] at hx
    cases hx.symm.trans hy
    exact x.sameSlot_refl⟩

/-- A child with what it gives to the text of the root, whatever has changed. -/
def Printer.Brings (p : Printer) (c : CompilationUnit) (x : Node × Text) : Prop :=
  ∀ (changed : NodeSet) (ds : List Diagnostic), ∃ f : Fragment,
    Yields (p.printIn changed (some c.root) x.1) ds f ds ∧ f.text = x.2 ∧ f.fresh = x.1.span.isNone

namespace Printer
open Node CompilationUnit

section Brings
variable {p : Printer} {c : CompilationUnit} {q : Span} {r : Row} {x : Node × Text}

/-- A new name gives itself. -/
theorem brings_new (hp : p.WritesNames) (hnone : x.1.span = none) (hname : x.1.isName = true)
    (htext : x.2 = x.1.inscription) : p.Brings c x := by
  intro changed ds
  refine ⟨_, Call.printIn_new changed _ ds hnone (hp x.1 (isName_iff.mp hname).1), ?_, by rw [hnone]; rfl⟩
  rw [htext]
  simp [Fragment.text]

/-- A child from which layout is measured gives its share. -/
theorem brings_share (h : c.Laid c.root q r) (hdistinct : c.root.Distinct) (hunit : p.units.get? q.file = some c)
    (hx : x ∈ Row.shares c.root r.head none r.cells) : p.Brings c x := by
  intro changed ds
  obtain ⟨pre, cell, post, hcells, rfl⟩ := Row.mem_shares c.root r.head hx
  obtain ⟨s, -, hs, -⟩ := h.child_place hcells
  have hcp := h.counterpart_child hdistinct hunit hcells cell.node.sameSlot_refl
  have hpristine : cell.node.isPristine changed cell.node = true := cell.node.isPristine_self changed
  refine ⟨_, h.printIn_child hunit hcells hcp hpristine ds, ?_, by rw [hs]; rfl⟩
  rw [Option.or_none]
  rfl

/-- A transparent child gives its name, and nothing around it. -/
theorem brings_transparent (h : c.Lettered q r) (hunit : p.units.get? q.file = some c) (hx : x.1 ∈ c.root.children)
    (hnone : x.1.layoutSpan = none) (htext : x.2 = x.1.inscription) : p.Brings c x := by
  intro changed ds
  obtain ⟨s, hs⟩ := Option.isSome_iff_exists.mp (h.name_child hx).2
  obtain ⟨hfile, hslice⟩ := h.slice_child hx hs
  have hsliceOf : p.sliceOf s = .ok x.1.inscription := by
    rw [Printer.sliceOf, Laid.sourceOf hunit hfile]
    dsimp only [bind, Except.bind]
    rw [hslice]
    rfl
  have hpristine : x.1.isPristine changed x.1 = true := x.1.isPristine_self changed
  have haround : Layout.around p.units x.1 = .ok {} := by rw [Layout.around, hnone]
  have hline : '\n' ∉ x.1.inscription :=
    Text.not_mem_of_isSolid (isName_iff.mp (h.name_child hx).1).2 (by decide)
  refine ⟨{ center := x.1.inscription }, ?_, by rw [htext]; simp [Fragment.text], by rw [hs]; rfl⟩
  rw [Printer.printIn]
  simp only [h.counterpart_child hunit hx, hs, hpristine, if_true]
  refine Yields.bind_iff.mpr ⟨_, ds, Yields.lift_iff.mpr ⟨haround, rfl⟩, ?_⟩
  refine Yields.bind_iff.mpr ⟨_, ds, Yields.lift_iff.mpr ⟨hsliceOf, rfl⟩, ?_⟩
  refine Yields.lift_iff.mpr ⟨?_, rfl⟩
  have hflat : (!(Fragment.text { center := x.1.inscription }).contains '\n') = true := by
    simpa [Fragment.text] using hline
  unfold Printer.relocate
  split
  · rw [hflat, Bool.or_true, if_pos rfl]
  · rfl

theorem print_children {fills : List (Node × Text)} (hfills : ∀ x ∈ fills, p.Brings c x) (changed : NodeSet)
    (ds : List Diagnostic) : ∃ fs : List (Node × Fragment),
      Yields ((fills.map (·.1)).mapM fun m => do return (m, ← p.printIn changed (some c.root) m)) ds fs ds ∧
      (fs.map fun x => (x.1, x.2.text)) = fills ∧ ∀ x ∈ fs, x.2.fresh = x.1.span.isNone := by
  induction fills with
  | nil => exact ⟨[], Yields.mapM_nil_iff.mpr ⟨rfl, rfl⟩, rfl, by simp⟩
  | cons x fills ih =>
    obtain ⟨f, hf, htext, hfresh⟩ := hfills x (List.mem_cons_self ..) changed ds
    obtain ⟨fs, hfs, htexts, hall⟩ := ih fun y hy => hfills y (List.mem_cons_of_mem _ hy)
    refine ⟨(x.1, f) :: fs, .mapM_keyed_cons hf hfs, ?_, List.forall_mem_cons.mpr ⟨hfresh, hall⟩⟩
    rw [List.map_cons, htexts, htext]

end Brings

end Printer

/-- A child with the text that it brings along: its share of a row, or else its name. -/
def Row.Brings (r : Row) (parent : Node) (x : Node × Text) : Prop :=
  x ∈ Row.shares parent r.head none r.cells ∨ (x.1.span = none ∧ x.1.isName = true ∧ x.2 = x.1.inscription)

/-- A node in the place of the root. Its children are children of the root, or names without a place. -/
structure CompilationUnit.Revised (c : CompilationUnit) (edited : Node) : Prop where
  slot : edited.sameSlot c.root
  content : edited.contentDiffers c.root = false
  sharing : Node.Sharing edited c.root
  each : ∀ a ∈ edited.children, a ∈ c.root.children ∨ (a.span = none ∧ a.isName = true)

namespace CompilationUnit.Revised
open Node

section Revised
variable {p : Printer} {c : CompilationUnit} {q : Span} {r : Row} {edited : Node} {fills : List (Node × Text)}

theorem counterpart (h : c.Revised edited) (hc : c.Lettered q r) (hunit : p.units.get? q.file = some c) :
    p.units.counterpart? edited = some c.root :=
  Units.counterpart?_of_sameSlot hc.sound.within hc.sound.distinct c.root.mem_preorder_self hc.span
    (Laid.tree hunit) h.slot

/-- Every child brings some text along. -/
theorem exists_fills (h : c.Revised edited) (hc : c.Inscribed q r) :
    ∃ fills : List (Node × Text), edited.children = fills.map (·.1) ∧ ∀ x ∈ fills, r.Brings c.root x := by
  have heach := h.each
  generalize edited.children = l at heach
  induction l with
  | nil => exact ⟨[], rfl, by simp⟩
  | cons a l ih =>
    obtain ⟨fills, rfl, hfills⟩ := ih fun b hb => heach b (List.mem_cons_of_mem _ hb)
    obtain ⟨t, ht⟩ : ∃ t, r.Brings c.root (a, t) := by
      rcases heach a (List.mem_cons_self ..) with ha | ⟨hnone, hname⟩
      · obtain ⟨pre, cell, post, hcells, rfl⟩ := hc.lettered.exists_cell ha
        have hmem : cell.node ∈ (Row.shares c.root r.head none r.cells).map (·.1) := by
          rw [Row.map_fst_shares, hcells]
          simp
        obtain ⟨⟨n, t⟩, hx, rfl⟩ := List.mem_map.mp hmem
        exact ⟨t, .inl hx⟩
      · exact ⟨a.inscription, .inr ⟨hnone, hname, rfl⟩⟩
    exact ⟨(a, t) :: fills, rfl, List.forall_mem_cons.mpr ⟨ht, hfills⟩⟩

theorem other (h : c.Revised edited) (hchanged : edited.childrenChanged c.root = true) :
    edited.same c.root = false := by
  cases hsame : edited.same c.root with
  | false => rfl
  | true =>
    rw [h.sharing edited edited.mem_preorder_self c.root c.root.mem_preorder_self hsame,
      childrenChanged_of_children_eq rfl] at hchanged
    cases hchanged

/-- The region of the node is printed as what the children give to it. -/
theorem yields_printRegion {l : Row} (h : c.Revised edited) (hc : c.Lettered q r) (hlaid : c.Laid c.root q l)
    (hunit : p.units.get? q.file = some c) (hchanged : edited.childrenChanged c.root = true)
    (hchildren : edited.children = fills.map (·.1)) (hfills : ∀ x ∈ fills, p.Brings c x) (hne : fills ≠ [])
    (hcells : l.cells ≠ []) (ds : List Diagnostic) :
    Yields (p.printRegion (.of p.units edited q)) ds
      (Printer.addChildren edited (c.source.text.indentationAt q.start)
        (p.style.lineEnding.text ++ p.childIndent c.source c.root (c.source.text.indentationAt q.start)) none
        (Gap.splitLeading c.root l.head).1 (fills.map Printer.brought) ++ (Gap.splitTrailing l.lastGap).2) ds := by
  have hcp := h.counterpart hc hunit
  have hother := h.other hchanged
  have hmem : (Region.of p.units edited q).changed.contains edited = true := by
    refine NodeSet.contains_ofList ?_
    rw [changedNodes, hcp]
    simp [hother, hchanged]
  have hpristine : edited.isPristine (Region.of p.units edited q).changed c.root = false :=
    isPristine_of_contains hother hmem
  obtain ⟨fs, hfs, htexts, hfresh⟩ := Printer.print_children hfills (Region.of p.units edited q).changed ds
  have hlast : l.lastGap = (l.cells.getLast hcells).gap := by
    rw [Row.lastGap, List.getLast?_eq_some_getLast hcells]
    rfl
  rw [← hchildren] at hfs
  rw [← Printer.addChildren_brought htexts hfresh, hlast]
  exact hlaid.yields_printRegion hc.sound.fits hunit hcp hpristine (by rw [hchildren]; simpa using hne)
    (List.dropLast_concat_getLast hcells).symm hfs

/-- If discovery takes notice, the text is put together from what the children give to it. -/
theorem rewrite?_of_gives {l : Row} (h : c.Revised edited) (hc : c.Lettered q r) (hlaid : c.Laid c.root q l)
    (hunit : p.units.get? q.file = some c) (hchanged : edited.childrenChanged c.root = true)
    (hreplaced : edited.replaced? c.root = none) (hchildren : edited.children = fills.map (·.1))
    (hfills : ∀ x ∈ fills, p.Brings c x) (hne : fills ≠ []) (hcells : l.cells ≠ []) :
    p.rewrite? c edited = some
      (Printer.addChildren edited (c.source.text.indentationAt 0)
        (p.style.lineEnding.text ++ p.childIndent c.source c.root (c.source.text.indentationAt 0)) none
        (Gap.splitLeading c.root l.head).1 (fills.map Printer.brought) ++ (Gap.splitTrailing l.lastGap).2) := by
  have hcp := h.counterpart hc hunit
  have hsearch : Region.search p.units edited = [.of p.units edited q] := by
    rw [Region.search_eq, hcp]
    simp only [h.other hchanged, hc.span, h.content, hchanged, hreplaced, Bool.false_eq_true, if_false, if_true]
  have hprint := h.yields_printRegion hc hlaid hunit hchanged hchildren hfills hne hcells []
  have hbefore : c.source.text.before 0 = [] := Text.before_append_size [] c.source.text
  have hafter : c.source.text.after c.source.text.size = [] := by
    have hend := Text.after_append_size c.source.text []
    rwa [List.append_nil] at hend
  rw [hlaid.rewrite?_of_region hc.sound.fits (by rw [hcp]; rfl) (Region.find_of_search hsearch) hprint, hc.whole.1,
    hc.whole.2, hbefore, hafter, List.nil_append, List.append_nil]

/-- Where layout is measured from all of the old children, it is put together from what they bring along. -/
theorem rewrite?_eq (h : c.Revised edited) (hc : c.Inscribed q r) (hunit : p.units.get? q.file = some c)
    (hp : p.WritesNames) (hchanged : edited.childrenChanged c.root = true) (hreplaced : edited.replaced? c.root = none)
    (hchildren : edited.children = fills.map (·.1)) (hfills : ∀ x ∈ fills, r.Brings c.root x) (hne : fills ≠ [])
    (hcells : r.cells ≠ []) :
    p.rewrite? c edited = some
      (Printer.addChildren edited (c.source.text.indentationAt 0)
        (p.style.lineEnding.text ++ p.childIndent c.source c.root (c.source.text.indentationAt 0)) none
        (Gap.splitLeading c.root r.head).1 (fills.map Printer.brought) ++ (Gap.splitTrailing r.lastGap).2) := by
  have hlaid := hc.written.laid hc.lettered.sound
  refine h.rewrite?_of_gives hc.lettered hlaid hunit hchanged hreplaced hchildren (fun x hx => ?_) hne hcells
  rcases hfills x hx with hshare | ⟨hnone, hname, htext⟩
  · exact Printer.brings_share hlaid hc.lettered.sound.distinct hunit hshare
  · exact Printer.brings_new hp hnone hname htext

/-- Otherwise the children are what they were. -/
theorem unnoticed (h : c.Revised edited) (hc : c.Inscribed q r) (hunit : p.units.get? q.file = some c)
    (hchanged : edited.childrenChanged c.root = false) :
    edited.children = c.root.children ∧ p.rewrite? c edited = some c.source.text := by
  obtain ⟨hlength, hslots⟩ := childrenChanged_eq_false_iff.mp hchanged
  have hchildren : edited.children = c.root.children := by
    refine List.ext_getElem hlength fun i hi hi' => ?_
    have hslot := hslots i _ _ (List.getElem?_eq_getElem hi) (List.getElem?_eq_getElem hi')
    have hb := List.getElem_mem hi'
    obtain ⟨pre, cell, post, hcells, hcell⟩ := hc.lettered.exists_cell hb
    obtain ⟨t, ht, -⟩ := hc.lettered.leaf_place hcells
    rw [← hcell] at ht
    obtain ⟨htag, ⟨s, t', hs, ht', hst⟩ | ⟨-, hnone⟩⟩ := sameSlot_iff.mp hslot
    · rcases h.each _ (List.getElem_mem hi) with ha | ⟨hnone, -⟩
      · exact hc.lettered.sound.distinct _ (hc.written.mem_child ha) _ (hc.written.mem_child hb) s t' hs ht' hst htag
      · rw [hs] at hnone
        cases hnone
    · rw [ht] at hnone
      cases hnone
  refine ⟨hchildren, Printer.rewrite?_of_find_nil (by rw [h.counterpart hc.lettered hunit]; rfl) ?_⟩
  refine Region.find_eq_nil_iff.mpr (Region.search_eq_nil_iff.mpr fun base hbase => .inr ?_)
  cases (h.counterpart hc.lettered hunit).symm.trans hbase
  refine ⟨⟨h.content, hchanged⟩, fun a ha => Region.search_eq_nil_iff.mpr fun b hb => .inl ?_⟩
  cases (hc.lettered.counterpart_child hunit (hchildren ▸ ha)).symm.trans hb
  exact a.same_refl

end Revised

end CompilationUnit.Revised

end Reprint
