import Mathlib
import Reprint.Proofs.Anchors
import Reprint.Proofs.Discovery
import Reprint.Proofs.Exchange
/-!
Nodes that are put together again from children they had. A written node is one whose text is a row of all its
children, in a unit that is in order, so that each child brings along its share of the gaps. Main statement: a node in
the same place that has some of these children, in any order, is printed as the shares of these
with separators between them (`Remade.printRegion`), and nothing else of the text is exchanged (`Remade.rewrite?_eq`).
-/

namespace Reprint

/-- A unit whose nodes are told apart by identity and by place, each within its parent and within the text. -/
structure CompilationUnit.Sound (c : CompilationUnit) : Prop where
  within : c.root.Within
  distinct : c.root.Distinct
  single : c.root.Single
  fits : c.Fits

/-- A node of a base tree that is written as a row. -/
structure CompilationUnit.Written (c : CompilationUnit) (n : Node) (q : Span) (r : Row) : Prop where
  mem : n ∈ c.root.preorder
  place : n.layoutSpan = some q
  children : n.children = r.cells.map (·.node)
  text : c.source.slice q.start q.stop = .ok r.text
  sits : Row.sits (q.start + r.head.size) r.cells

namespace CompilationUnit.Written
open Node

section Base
variable {u : Units} {c : CompilationUnit} {n : Node} {q : Span} {r : Row} {pre post : List Cell} {cell : Cell}

theorem span (h : c.Written n q r) : n.span = some q := (layoutSpan_eq_some_iff.mp h.place).1

theorem mem_child (h : c.Written n q r) {b : Node} (hb : b ∈ n.children) : b ∈ c.root.preorder :=
  mem_preorder_trans h.mem (mem_preorder_child hb)

theorem child (h : c.Written n q r) (hcells : r.cells = pre ++ cell :: post) : cell.node ∈ n.children := by
  rw [h.children, hcells]
  simp

theorem layoutSpan_of_mem (h : c.Written n q r) (hcell : cell ∈ r.cells) :
    ∃ s, cell.node.layoutSpan = some s := by
  obtain ⟨pre, post, hcells⟩ := List.append_of_mem hcell
  obtain ⟨s, hs, -⟩ := Row.place_of_stands (hcells ▸ h.sits)
  exact ⟨s, hs⟩

/-- A written node is laid out with all of its children. -/
theorem laid (h : c.Written n q r) (ho : c.Sound) : c.Laid n q r where
  once := ho.single.once
  above := ho.within.encloses h.span
  mem := h.mem
  place := h.place
  anchors := by
    rw [Layout.anchors, h.children]
    refine List.filter_eq_self.mpr fun b hb => ?_
    obtain ⟨cell, hcell, rfl⟩ := List.mem_map.mp hb
    obtain ⟨s, hs⟩ := h.layoutSpan_of_mem hcell
    rw [hs]
    rfl
  file := by
    intro cell hcell s hs
    have hchild : cell.node ∈ n.children := by
      rw [h.children]
      exact List.mem_map.mpr ⟨cell, hcell, rfl⟩
    have hin := ho.within _ h.mem _ (mem_preorder_child hchild) _ _ h.span hs
    exact (Span.includes_iff.mp hin).1.symm
  text := h.text
  sits := h.sits

end Base

end CompilationUnit.Written

/-! ### Nodes that are put together again -/

namespace CompilationUnit.Laid
open Node

section Again
variable {p : Printer} {c : CompilationUnit} {n : Node} {q : Span} {r : Row} {edited : Node}

/-- The region of a node in the place of a laid out one is printed as its children, between what is left to the node
itself. -/
theorem yields_printRegion (h : c.Laid n q r) (hfits : c.Fits) (hunit : p.units.get? q.file = some c)
    {changed : NodeSet} (hcp : p.units.counterpart? edited = some n) (hpristine : edited.isPristine changed n = false)
    (hne : edited.children ≠ []) {pre : List Cell} {last : Cell} (hcells : r.cells = pre ++ [last])
    {fs : List (Node × Fragment)} {ds : List Diagnostic}
    (hfs : Yields (edited.children.mapM fun m => do return (m, ← p.printIn changed (some n) m)) ds fs ds) :
    Yields (p.printRegion { top := edited, range := q, changed }) ds
      (Printer.addChildren edited (c.source.text.indentationAt q.start)
        (p.style.lineEnding.text ++ p.childIndent c.source n (c.source.text.indentationAt q.start)) none
        (Gap.splitLeading n r.head).1 fs ++ (Gap.splitTrailing last.gap).2) ds := by
  obtain ⟨l, hl⟩ := Layout.around_ok hunit hfits h.mem h.span
  have hprint := h.yields_print hunit hcp hpristine hne hcells hl hfs
  exact Yields.bind_iff.mpr ⟨_, ds, hprint, Yields.pure_iff.mpr ⟨rfl, rfl⟩⟩

/-- Where the node is the only region, its text is exchanged and nothing else. -/
theorem rewrite?_of_region (h : c.Laid n q r) (hfits : c.Fits) (hcp : (p.units.counterpart? edited).isSome)
    (hfind : Region.find p.units edited = [.of p.units edited q]) {t : Text}
    (ht : Yields (p.printRegion (.of p.units edited q)) [] t []) :
    p.rewrite? c edited = some (c.source.text.before q.start ++ t ++ c.source.text.after q.stop) := by
  have hedits : Yields ((Region.find p.units edited).mapM p.editOf) []
      [⟨q.start, q.stop, t, "Regenerate " ++ edited.tag.name⟩] [] := by
    rw [hfind]
    exact Yields.mapM_cons_iff.mpr ⟨_, [], [], Yields.bind_iff.mpr ⟨t, [], ht, Yields.pure_iff.mpr ⟨rfl, rfl⟩⟩,
      Yields.mapM_nil_iff.mpr ⟨rfl, rfl⟩, rfl⟩
  have hcut := hfits n h.mem q h.span
  have hle : q.start ≤ q.stop := by
    obtain ⟨a, b, -, ha, hab⟩ := Source.slice_eq_ok_iff.mp h.text
    rw [← ha, ← hab, Text.size_append]
    exact Nat.le_add_right ..
  refine Printer.rewrite?_eq_some_iff.mpr ⟨⟨_, []⟩, Printer.regenerate_eq_ok_iff.mpr ⟨hcp, hedits⟩, ?_⟩
  simp [Edit.applyAll, Edit.fromEnd, Edit.check, Edit.fits, Edit.replace, hcut, hle]

end Again

end CompilationUnit.Laid

/-! ### Putting children together -/

namespace Printer

/-- Children with the texts they bring along, put together with separators between them. -/
def assemble (parent : Node) (lineBreak : Text) : Option Node → Text → List (Node × Text) → Text
  | _, out, [] => out
  | none, out, (m, t) :: l => assemble parent lineBreak (some m) (out ++ t) l
  | some left, out, (m, t) :: l =>
    let parts := Separator.glue out ((Separator.between parent left m).text lineBreak) t
    assemble parent lineBreak (some m) (out ++ parts.1 ++ parts.2) l

theorem addChildren_eq_assemble {parent : Node} {indent lineBreak : Text} {previous : Option Node} {out : Text}
    {l : List (Node × Fragment)} (hl : ∀ x ∈ l, x.2.fresh = false) :
    addChildren parent indent lineBreak previous out l =
      assemble parent lineBreak previous out (l.map fun x => (x.1, x.2.text)) := by
  induction l generalizing previous out with
  | nil => cases previous <;> rfl
  | cons x l ih =>
    obtain ⟨m, f⟩ := x
    have hfresh : f.fresh = false := hl _ (List.mem_cons_self ..)
    rw [addChildren, ih fun y hy => hl y (List.mem_cons_of_mem _ hy), List.map_cons, addChild, hfresh]
    cases previous with
    | none =>
      show assemble parent lineBreak (some m) (out ++ [] ++ f.text) _ = _
      rw [List.append_nil]
      rfl
    | some left => rfl

end Printer

/-- A child of an edited node that stands for a base node: that node itself, or a token made again. -/
def Node.StandsFor (edited m b : Node) : Prop :=
  m = b ∨ (edited.same m = false ∧ m.sameShape b = true ∧ m.children = [] ∧ b.children = [])

/-- A child of an edited node, the base node it stands for, and the text that this one brings along. -/
structure Pick where
  node : Node
  base : Node
  text : Text

/-- A node in the place of a written one that is made of children which that one had. -/
structure CompilationUnit.Remade (n : Node) (r : Row) (edited : Node) (picks : List Pick) : Prop where
  slot : edited.sameSlot n
  other : edited.same n = false
  children : edited.children = picks.map (·.node)
  each : ∀ k ∈ picks, edited.StandsFor k.node k.base ∧ (k.base, k.text) ∈ Row.shares n r.head none r.cells

/-- What has changed is not its base node. -/
theorem Node.isPristine_changed {edited n : Node} (h : edited.same n = false) :
    edited.isPristine (.ofList [edited]) n = false :=
  isPristine_of_contains h (NodeSet.contains_ofList (List.mem_singleton_self _))

namespace Node.StandsFor
open Node
variable {u : Units} {edited m b : Node}

theorem slot (h : edited.StandsFor m b) : m.sameSlot b := by
  rcases h with rfl | ⟨-, hshape, -⟩
  · exact m.sameSlot_refl
  · exact (Bool.and_eq_true_iff.mp hshape).1

theorem agrees (h : edited.StandsFor m b) (hm : m.same b = false) : m.Agrees b ∧ m.children = [] := by
  rcases h with rfl | ⟨-, hshape, hnil, hnil'⟩
  · rw [same_refl] at hm
    cases hm
  · have hcontent := (Bool.and_eq_true_iff.mp hshape).2
    refine ⟨⟨by simpa using hcontent, ?_⟩, hnil⟩
    rw [childrenChanged, hnil, hnil']
    rfl

theorem pristine (h : edited.StandsFor m b) : m.isPristine (.ofList [edited]) b = true := by
  rw [isPristine]
  rcases h with rfl | ⟨hother, hshape, hnil, hnil'⟩
  · rw [same_refl, Bool.true_or]
  · have hcontains : (NodeSet.ofList [edited]).contains m = false := by
      show (edited.same m || false) = false
      rw [hother, Bool.or_false]
    simp [hcontains, hshape, hnil, hnil']

theorem search_nil (h : edited.StandsFor m b) (hb : u.counterpart? m = some b) : Region.search u m = [] := by
  refine Region.search_eq_nil_iff.mpr fun base hbase => ?_
  cases hb.symm.trans hbase
  cases hm : m.same b with
  | true => exact .inl rfl
  | false =>
    obtain ⟨hagrees, hnil⟩ := h.agrees hm
    exact .inr ⟨hagrees, by simp [hnil]⟩

theorem changedNodes_nil (h : edited.StandsFor m b) (hb : u.counterpart? m = some b) : m.changedNodes u = [] := by
  rw [changedNodes, hb]
  dsimp only
  cases hm : m.same b with
  | true => rfl
  | false =>
    obtain ⟨⟨hcontent, hchildren⟩, hnil⟩ := h.agrees hm
    rw [hcontent, hchildren, flatMap_attach m.children (changedNodes u), hnil]
    rfl

end Node.StandsFor

namespace CompilationUnit.Remade
open Node

section Remade
variable {p : Printer} {c : CompilationUnit} {n : Node} {q : Span} {r : Row} {edited : Node} {picks : List Pick}

theorem counterpart (hr : Remade n r edited picks) (h : c.Written n q r) (ho : c.Sound)
    (hunit : p.units.get? q.file = some c) : p.units.counterpart? edited = some n :=
  Units.counterpart?_of_sameSlot ho.within ho.distinct h.mem h.span (Laid.tree hunit) hr.slot

/-- A child, the base node that it stands for, and the share of that one. -/
theorem pick (hr : Remade n r edited picks) (h : c.Written n q r) (ho : c.Sound)
    (hunit : p.units.get? q.file = some c) {k : Pick} (hk : k ∈ picks) :
    p.units.counterpart? k.node = some k.base ∧ ∃ pre cell post, r.cells = pre ++ cell :: post ∧ k.base = cell.node ∧
      k.text = Row.share n r.head pre.getLast? cell post.head? := by
  obtain ⟨hstands, hshare⟩ := hr.each k hk
  obtain ⟨pre, cell, post, hcells, heq⟩ := Row.mem_shares n r.head hshare
  obtain ⟨hbase, htext⟩ := Prod.mk.inj heq
  obtain ⟨s, -, hs, hfile, -⟩ := (h.laid ho).child_place hcells
  refine ⟨?_, pre, cell, post, hcells, hbase, by rw [htext, Option.or_none]⟩
  rw [hbase]
  exact Units.counterpart?_of_sameSlot ho.within ho.distinct (h.mem_child (h.child hcells)) hs
    (by rw [hfile, Laid.tree hunit]) (hbase ▸ hstands.slot)

theorem search_below (hr : Remade n r edited picks) (h : c.Written n q r) (ho : c.Sound)
    (hunit : p.units.get? q.file = some c) : edited.children.flatMap (Region.search p.units) = [] := by
  rw [hr.children, List.flatMap_map, List.flatMap_eq_nil_iff]
  exact fun k hk => (hr.each k hk).1.search_nil (hr.pick h ho hunit hk).1

theorem changedNodes (hr : Remade n r edited picks) (h : c.Written n q r) (ho : c.Sound)
    (hunit : p.units.get? q.file = some c)
    (hchanged : edited.contentDiffers n = true ∨ edited.childrenChanged n = true) :
    edited.changedNodes p.units = [edited] := by
  have hbelow : edited.children.flatMap (Node.changedNodes p.units) = [] := by
    rw [hr.children, List.flatMap_map, List.flatMap_eq_nil_iff]
    exact fun k hk => (hr.each k hk).1.changedNodes_nil (hr.pick h ho hunit hk).1
  have hif : (edited.contentDiffers n || edited.childrenChanged n) = true := Bool.or_eq_true_iff.mpr hchanged
  rw [Node.changedNodes, hr.counterpart h ho hunit]
  simp only [hr.other, hif, flatMap_attach edited.children (Node.changedNodes p.units), hbelow, if_true,
    Bool.false_eq_true, if_false]

/-- The children of the edited node give the texts that their base nodes bring along. -/
theorem print_children (hr : Remade n r edited picks) (h : c.Written n q r) (ho : c.Sound)
    (hunit : p.units.get? q.file = some c) (ds : List Diagnostic) : ∃ fs : List (Node × Fragment),
      Yields (edited.children.mapM fun m => do return (m, ← p.printIn (.ofList [edited]) (some n) m)) ds fs ds ∧
      (fs.map fun x => (x.1, x.2.text)) = (picks.map fun k => (k.node, k.text)) ∧ ∀ x ∈ fs, x.2.fresh = false := by
  rw [hr.children]
  have hpicks := hr.each
  have hpick := fun k hk => hr.pick h ho hunit (k := k) hk
  clear hr
  induction picks with
  | nil => exact ⟨[], Yields.mapM_nil_iff.mpr ⟨rfl, rfl⟩, rfl, by simp⟩
  | cons k picks ih =>
    obtain ⟨fs, hfs, htexts, hfresh⟩ := ih (fun k hk => hpicks k (List.mem_cons_of_mem _ hk))
      fun k hk => hpick k (List.mem_cons_of_mem _ hk)
    obtain ⟨hstands, -⟩ := hpicks k (List.mem_cons_self ..)
    obtain ⟨hcp, pre, cell, post, hcells, hbase, htext⟩ := hpick k (List.mem_cons_self ..)
    have hprint := (h.laid ho).printIn_child hunit hcells (hbase ▸ hcp) (hbase ▸ hstands.pristine) ds
    refine ⟨(k.node, _) :: fs, .mapM_keyed_cons hprint hfs, ?_, ?_⟩
    · rw [List.map_cons, List.map_cons, htexts, htext]
      rfl
    · exact List.forall_mem_cons.mpr ⟨rfl, hfresh⟩

/-- The line break between the children of a node that is put together again. -/
def lineBreak (p : Printer) (c : CompilationUnit) (n : Node) (q : Span) : Text :=
  p.style.lineEnding.text ++ p.childIndent c.source n (c.source.text.indentationAt q.start)

theorem changed_eq (hr : Remade n r edited picks) (h : c.Written n q r) (ho : c.Sound)
    (hunit : p.units.get? q.file = some c)
    (hchanged : edited.contentDiffers n = true ∨ edited.childrenChanged n = true) :
    (Region.of p.units edited q).changed = .ofList [edited] := by
  rw [Region.of, hr.changedNodes h ho hunit hchanged]

theorem isPristine_eq (hr : Remade n r edited picks) : edited.isPristine (.ofList [edited]) n = false :=
  isPristine_changed hr.other

/-- A node made of children which a written one had is printed as the texts that these bring along. -/
theorem printRegion (hr : Remade n r edited picks) (h : c.Written n q r) (ho : c.Sound)
    (hunit : p.units.get? q.file = some c)
    (hchanged : edited.contentDiffers n = true ∨ edited.childrenChanged n = true) (hpicks : picks ≠ [])
    {pre : List Cell} {last : Cell} (hcells : r.cells = pre ++ [last]) (ds : List Diagnostic) :
    Yields (p.printRegion (.of p.units edited q)) ds
      (Printer.assemble edited (lineBreak p c n q) none (Gap.splitLeading n r.head).1
        (picks.map fun k => (k.node, k.text)) ++ (Gap.splitTrailing last.gap).2) ds := by
  obtain ⟨fs, hfs, htexts, hfresh⟩ := hr.print_children h ho hunit ds
  have hne : edited.children ≠ [] := by
    rw [hr.children]
    simpa using hpicks
  have hprint := (h.laid ho).yields_printRegion ho.fits hunit (hr.counterpart h ho hunit) hr.isPristine_eq hne hcells hfs
  rw [Printer.addChildren_eq_assemble hfresh, htexts] at hprint
  rw [Region.of, hr.changedNodes h ho hunit hchanged]
  exact hprint

/-- A node that has lost all its children is printed from scratch. -/
theorem printRegion_nil (hr : Remade n r edited []) (h : c.Written n q r) (ho : c.Sound)
    (hunit : p.units.get? q.file = some c)
    (hchanged : edited.contentDiffers n = true ∨ edited.childrenChanged n = true)
    (hleaf : Printer.leafText? edited = none) {t : Text} (ht : p.fallback edited = .ok t) (ds : List Diagnostic) :
    Yields (p.printRegion (.of p.units edited q)) ds t ds := by
  obtain ⟨l, hl⟩ := Layout.around_ok hunit ho.fits h.mem h.span
  have hnew : Yields (p.printLeaf edited) ds t ds := by
    rw [Printer.printLeaf, hleaf, Printer.printNew, ht]
    exact Yields.pure_iff.mpr ⟨rfl, rfl⟩
  have hprint : Yields (p.print (.ofList [edited]) edited) ds (.mk l.leading t l.trailing false) ds := by
    rw [Printer.print, Printer.printIn]
    simp only [hr.counterpart h ho hunit, h.span, hr.isPristine_eq, hr.children, List.map_nil, List.isEmpty_nil,
      Bool.false_eq_true, if_false, if_true]
    refine Yields.bind_iff.mpr ⟨l, ds, Yields.lift_iff.mpr ⟨hl, rfl⟩, ?_⟩
    exact Yields.bind_iff.mpr ⟨t, ds, hnew, Yields.lift_iff.mpr ⟨rfl, rfl⟩⟩
  rw [Printer.printRegion, hr.changed_eq h ho hunit hchanged]
  exact Yields.bind_iff.mpr ⟨_, ds, hprint, Yields.pure_iff.mpr ⟨rfl, rfl⟩⟩

/-! ### The text of the unit -/

theorem find_region (hr : Remade n r edited picks) (h : c.Written n q r) (ho : c.Sound)
    (hunit : p.units.get? q.file = some c)
    (hchanged : edited.contentDiffers n = true ∨ edited.childrenChanged n = true ∧ edited.replaced? n = none) :
    Region.find p.units edited = [.of p.units edited q] := by
  have hsearch : Region.search p.units edited = [.of p.units edited q] := by
    rw [Region.search_eq, hr.counterpart h ho hunit]
    simp only [hr.other, h.span, hr.search_below h ho hunit, Bool.false_eq_true, if_false]
    cases hcontent : edited.contentDiffers n with
    | true => rfl
    | false =>
      obtain ⟨hchildren, hreplaced⟩ := hchanged.resolve_left (by rw [hcontent]; exact Bool.false_ne_true)
      rw [hchildren, hreplaced]
      rfl
  exact Region.find_of_search hsearch

/-- The region of the edited node is exchanged, and nothing else. -/
theorem rewrite?_eq (hr : Remade n r edited picks) (h : c.Written n q r) (ho : c.Sound)
    (hunit : p.units.get? q.file = some c)
    (hchanged : edited.contentDiffers n = true ∨ edited.childrenChanged n = true ∧ edited.replaced? n = none) {t : Text}
    (ht : Yields (p.printRegion (.of p.units edited q)) [] t []) :
    p.rewrite? c edited = some (c.source.text.before q.start ++ t ++ c.source.text.after q.stop) :=
  (h.laid ho).rewrite?_of_region ho.fits (by rw [hr.counterpart h ho hunit]; rfl) (hr.find_region h ho hunit hchanged) ht

/-- Where nothing has changed, the text stays as it is. -/
theorem rewrite?_self (hr : Remade n r edited picks) (h : c.Written n q r) (ho : c.Sound)
    (hunit : p.units.get? q.file = some c) (hagrees : edited.Agrees n) :
    p.rewrite? c edited = some c.source.text := by
  have hfind : Region.find p.units edited = [] := by
    refine Region.find_eq_nil_iff.mpr (Region.search_eq_nil_iff.mpr fun base hbase => .inr ?_)
    cases (hr.counterpart h ho hunit).symm.trans hbase
    exact ⟨hagrees, List.flatMap_eq_nil_iff.mp (hr.search_below h ho hunit)⟩
  exact Printer.rewrite?_of_find_nil (by rw [hr.counterpart h ho hunit]; rfl) hfind

end Remade

end CompilationUnit.Remade

end Reprint
