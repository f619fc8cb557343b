import Mathlib
import Reprint.Proofs.ChangedNodes
import Reprint.Proofs.Exchange
import Reprint.Proofs.Loading
import Reprint.Proofs.Runs
import Reprint.Proofs.Surroundings
/-!
Edits that can be applied. Printing looks up texts, cuts them at the places of base nodes and measures the gaps between
these; where all of them stand in the text, no step of it fails. Each edit then has the range of a base node, and the
widest of ranges that are nested or disjoint stand one behind the other. Main statement: of a base tree and an edited
tree that load against one source, the edits are in order and can be applied to it, as long as the edited root has a
counterpart.
-/

namespace Reprint

/-- Any two nodes are nested or disjoint. -/
def Node.Laminar (root : Node) : Prop :=
  ∀ a ∈ root.preorder, ∀ b ∈ root.preorder, ∀ s t, a.span = some s → b.span = some t →
    s.includes t ∨ t.includes s ∨ ¬s.overlaps t

/-- Decides whether any two nodes are nested or disjoint. -/
def Node.isLaminar (root : Node) : Bool :=
  root.preorder.all fun a => root.preorder.all fun b =>
    a.placesAll (fun s t => s.includes t || t.includes s || !s.overlaps t) b

theorem Node.laminar_of_isLaminar {root : Node} (h : root.isLaminar) : Laminar root := by
  simp only [isLaminar, List.all_eq_true, placesAll_iff, Bool.or_eq_true, Bool.not_eq_true', or_assoc,
    ← Bool.not_eq_true] at h
  exact h

namespace Printer
open Node

/-- A printer that knows a unit whose nodes stand in its text, from one offset to a later one. -/
structure Serves (p : Printer) (c : CompilationUnit) : Prop where
  known : p.units.get? c.source.name = some c
  ranged : ∀ n ∈ c.root.preorder, ∀ s, n.span = some s → c.source.HasRange s
  forward : ∀ n ∈ c.root.preorder, ∀ s, n.span = some s → s.start ≤ s.stop

section Serves
variable {p : Printer} {c : CompilationUnit} {n b : Node} {s : Span}

theorem Serves.fits (h : p.Serves c) : c.Fits := fun n hn s hs => ⟨(h.ranged n hn s hs).start, (h.ranged n hn s hs).stop⟩

theorem Serves.knownAt (h : p.Serves c) (hs : s.file = c.source.name) : p.units.get? s.file = some c := by
  rw [hs, h.known]

theorem Serves.tree (h : p.Serves c) (hs : s.file = c.source.name) : p.units.tree? s.file = some c.root := by
  rw [Units.tree?, h.knownAt hs, Option.map_some]

theorem Serves.sourceOf (h : p.Serves c) (hs : s.file = c.source.name) : p.sourceOf s = .ok c.source := by
  rw [Printer.sourceOf, Units.source?, h.knownAt hs]
  rfl

theorem Serves.counterpart (h : p.Serves c) (hn : ∀ s, n.span = some s → s.file = c.source.name)
    (hcp : p.units.counterpart? n = some b) : b ∈ c.root.preorder := by
  obtain ⟨q, root, hq, hroot, hb, -⟩ := Units.counterpart?_inv hcp
  rw [h.tree (hn q hq)] at hroot
  cases hroot
  exact (mem_atRange hb).1

theorem Serves.sliceOf (h : p.Serves c) (hb : b ∈ c.root.preorder) (hs : b.span = some s) :
    ∃ t, p.sliceOf s = .ok t := by
  have hcuts := h.ranged b hb s hs
  have hslice : c.source.text.slice? s.start s.stop = some ((c.source.text.before s.stop).after s.start) := by
    rw [Text.slice?, if_pos ⟨h.forward b hb s hs, hcuts.start, hcuts.stop⟩]
  refine ⟨(c.source.text.before s.stop).after s.start, ?_⟩
  rw [Printer.sliceOf, h.sourceOf hcuts.file]
  dsimp only [Bind.bind, Except.bind]
  rw [Source.slice, hslice]
  rfl

theorem Serves.affixes (h : p.Serves c) (hb : b ∈ c.root.preorder) : ∃ o, Layout.affixes? c.source b = .ok o := by
  have hchild : ∀ t ∈ b.children.filterMap (·.layoutSpan), c.source.HasRange t := by
    intro t ht
    obtain ⟨d, hd, hdt⟩ := List.mem_filterMap.mp ht
    exact h.ranged d (mem_preorder_trans hb (mem_preorder_child hd)) t (layoutSpan_eq_some_iff.mp hdt).1
  unfold Layout.affixes?
  dsimp only
  split
  · next bounds first last hbounds hfirst hlast =>
    have hcuts := h.ranged b hb bounds (layoutSpan_eq_some_iff.mp hbounds).1
    obtain ⟨l, hl⟩ := Layout.gap_ok hcuts.start (hchild first (List.mem_of_head? hfirst)).start
    obtain ⟨r, hr⟩ := Layout.gap_ok (hchild last (List.mem_of_getLast? hlast)).stop hcuts.stop
    rw [hl, hr]
    exact ⟨_, rfl⟩
  · exact ⟨none, rfl⟩

/-- Moving a fragment never fails: the nodes whose indentations it compares are base nodes. -/
theorem Serves.relocate (h : p.Serves c) {f : Fragment} {context : Option Node} (hb : b ∈ c.root.preorder)
    (hcontext : ∀ d, context = some d → d ∈ c.root.preorder) : ∃ f', p.relocate f b context = .ok f' := by
  have hindent : ∀ {d : Node} {t : Span}, d ∈ c.root.preorder → d.span = some t → ∃ x, p.indentationOf t = .ok x := by
    intro d t hd ht
    rw [indentationOf, h.sourceOf (h.ranged d hd t ht).file]
    exact ⟨_, rfl⟩
  unfold Printer.relocate
  split
  · next context parent hparent =>
    split
    · exact ⟨f, rfl⟩
    · split
      · next old new hold hnew =>
        obtain ⟨q, root, hq, hroot, hmem, -⟩ := Units.parent?_inv hparent
        rw [h.tree (h.ranged b hb q hq).file] at hroot
        cases hroot
        obtain ⟨x, hx⟩ := hindent hmem hold
        obtain ⟨y, hy⟩ := hindent (hcontext context rfl) hnew
        rw [hx, hy]
        exact ⟨_, rfl⟩
      · exact ⟨f, rfl⟩
  · exact ⟨f, rfl⟩

/-- Printing never fails on trees whose nodes stand in the file of the unit. -/
theorem Serves.completes_printIn (h : p.Serves c) (changed : NodeSet) {context : Option Node}
    (hcontext : ∀ d, context = some d → d ∈ c.root.preorder)
    (hn : ∀ m ∈ n.preorder, ∀ s, m.span = some s → s.file = c.source.name) :
    Completes (p.printIn changed context n) := by
  induction n using children_induction generalizing context with
  | step n ih =>
    have hchildren : ∀ b ∈ c.root.preorder, ∀ x ∈ n.children, Completes (p.printIn changed (some b) x) :=
      fun b hb x hx => ih x hx (fun d hd => Option.some.inj hd ▸ hb) fun m hm => hn m (mem_preorder_of_child hx hm)
    rw [printIn]
    split
    · exact .bind (completes_printNew p n) fun _ => .pure _
    · next b hcp =>
      have hb := h.counterpart (hn n n.mem_preorder_self) hcp
      split
      · exact .bind (completes_printNew p n) fun _ => .pure _
      · next s hs =>
        have hfile := (h.ranged b hb s hs).file
        refine .bind (.lift (Layout.around_ok (h.knownAt hfile) h.fits hb hs)) fun layout => ?_
        have hlast : ∀ center, Completes (liftM (p.relocate
            { leading := layout.leading, center, trailing := layout.trailing } b context)) := fun center =>
          .lift (h.relocate hb hcontext)
        dsimp only
        split
        · exact .bind (.lift (h.sliceOf hb hs)) hlast
        · split
          · exact .bind (completes_printLeaf p n) hlast
          · obtain ⟨o, ho⟩ := h.affixes hb
            refine .bind_lift (h.sourceOf hfile) (.bind_lift ho ?_)
            cases o with
            | none => exact .bind (completes_printNew p n) hlast
            | some affixes =>
              refine .bind (.mapM fun x _ => .bind (hchildren b hb x.1 x.2) fun _ => .pure _) fun fragments => ?_
              exact .bind (.pure _) hlast

end Serves

/-! ### Regions of a unit -/

section Regions
variable {p : Printer} {c : CompilationUnit} {n : Node}

/-- A region belongs to an edited node and has the range of a base node. -/
theorem Serves.mem_search (h : p.Serves c) (hn : ∀ m ∈ n.preorder, ∀ s, m.span = some s → s.file = c.source.name)
    {r : Region} (hr : r ∈ Region.search p.units n) :
    r.top ∈ n.preorder ∧ ∃ b ∈ c.root.preorder, b.span = some r.range := by
  obtain ⟨htop, -, -, m, hm, base, hcp, b, hb, hrange⟩ := Region.search_origin hr
  exact ⟨htop, b, mem_preorder_trans (h.counterpart (hn m hm) hcp) hb, hrange⟩

theorem Serves.completes_printRegion (h : p.Serves c)
    (hn : ∀ m ∈ n.preorder, ∀ s, m.span = some s → s.file = c.source.name) {r : Region}
    (hr : r ∈ Region.search p.units n) : Completes (p.printRegion r) := by
  obtain ⟨htop, b, hb, hrange⟩ := h.mem_search hn hr
  refine .bind (h.completes_printIn _ (fun d hd => nomatch hd) fun m hm => hn m (mem_preorder_trans htop hm)) fun f => ?_
  split
  · refine .bind (.lift ?_) fun _ => .pure _
    rw [indentationOf, h.sourceOf (h.ranged b hb _ hrange).file]
    exact ⟨_, rfl⟩
  · exact .pure _

/-- The edits of regions, one for each and with its range. -/
theorem edits_of_regions {rs : List Region} (h : ∀ r ∈ rs, Completes (p.printRegion r)) (ds : List Diagnostic) :
    ∃ es ds', Yields (rs.mapM p.editOf) ds es ds' ∧
      es.map (fun e => (e.start, e.stop)) = rs.map fun r => (r.range.start, r.range.stop) := by
  induction rs generalizing ds with
  | nil => exact ⟨[], ds, Yields.mapM_nil_iff.mpr ⟨rfl, rfl⟩, rfl⟩
  | cons r rs ih =>
    obtain ⟨replacement, ds₁, htext⟩ := h r (List.mem_cons_self ..) ds
    obtain ⟨es, ds₂, hes, hranges⟩ := ih (fun r hr => h r (List.mem_cons_of_mem _ hr)) ds₁
    let e : Edit :=
      { start := r.range.start, stop := r.range.stop, replacement, message := "Regenerate " ++ r.top.tag.name }
    refine ⟨e :: es, ds₂, Yields.mapM_cons_iff.mpr ⟨e, ds₁, es, ?_, hes, rfl⟩, by simp [e, hranges]⟩
    exact Yields.bind_iff.mpr ⟨replacement, ds₁, htext, Yields.pure_iff.mpr ⟨rfl, rfl⟩⟩

theorem ordered_of_ranges {rs : List Region} {es : List Edit}
    (h : es.map (fun e => (e.start, e.stop)) = rs.map fun r => (r.range.start, r.range.stop))
    (hrs : rs.Pairwise fun a b => a.range.start < b.range.start ∧ a.range.stop ≤ b.range.start) : Edit.Ordered es := by
  have hpairs : (rs.map fun r => (r.range.start, r.range.stop)).Pairwise fun x y => x.1 < y.1 ∧ x.2 ≤ y.1 :=
    List.pairwise_map.mpr hrs
  rw [← h] at hpairs
  exact List.pairwise_map.mp hpairs

end Regions

/-- For a unit with nested or disjoint nodes, the edits are in order and can be applied. -/
theorem Serves.edits_apply {p : Printer} {c : CompilationUnit} (h : p.Serves c) (hlaminar : Laminar c.root) {n : Node}
    (hn : ∀ m ∈ n.preorder, ∀ s, m.span = some s → s.file = c.source.name)
    (hcp : (p.units.counterpart? n).isSome) :
    ∃ g t, p.regenerate n = .ok g ∧ Edit.Ordered g.edits ∧ Edit.applyAll c.source.text g.edits = .ok t := by
  have hmem : ∀ r ∈ Region.find p.units n, r ∈ Region.search p.units n := fun r hr => Region.mem_of_mem_widest hr
  obtain ⟨es, ds, hes, hranges⟩ := edits_of_regions (fun r hr => h.completes_printRegion hn (hmem r hr)) []
  have horder : Edit.Ordered es := by
    refine ordered_of_ranges hranges (Region.widest_ordered fun r hr r' hr' => ?_)
    obtain ⟨-, b, hb, hrange⟩ := h.mem_search hn hr
    obtain ⟨-, b', hb', hrange'⟩ := h.mem_search hn hr'
    exact ⟨(h.ranged b hb _ hrange).file.trans (h.ranged b' hb' _ hrange').file.symm, h.forward b hb _ hrange,
      h.forward b' hb' _ hrange', hlaminar b hb b' hb' _ _ hrange hrange'⟩
  have hfits : ∀ e ∈ es, e.fits c.source.text := by
    intro e he
    have hpair : (e.start, e.stop) ∈ (Region.find p.units n).map fun r => (r.range.start, r.range.stop) := by
      rw [← hranges]
      exact List.mem_map.mpr ⟨e, he, rfl⟩
    obtain ⟨r, hr, heq⟩ := List.mem_map.mp hpair
    obtain ⟨hstart, hstop⟩ := Prod.mk.inj heq
    obtain ⟨-, b, hb, hrange⟩ := h.mem_search hn (hmem r hr)
    have hcuts := h.ranged b hb _ hrange
    simp only [Edit.fits, ← hstart, ← hstop, h.forward b hb _ hrange, hcuts.start, hcuts.stop, decide_true,
      Bool.and_self]
  obtain ⟨t, ht, -⟩ := Edit.applyAll_of_ordered hfits horder
  exact ⟨{ edits := es, diagnostics := ds }, t, regenerate_eq_ok_iff.mpr ⟨hcp, hes⟩, horder, ht⟩

/-- Of trees that load against one source, where the places of the base tree go forward and are nested or disjoint:
without a counterpart of the root there is nothing but that fault, and with one the edits are in order and can be
applied to the source. -/
theorem loaded_edits_apply (p : Printer) (source : Source) (text text' : Text) (base edited : LoadedTree)
    (hbase : LoadedTree.ofBase source text = .ok base) (hedited : LoadedTree.ofEdited source text' base = .ok edited)
    (hunit : p.units.get? source.name = some { source, root := base.root })
    (hforward : ∀ n ∈ base.root.preorder, ∀ s, n.span = some s → s.start ≤ s.stop) (hlaminar : Laminar base.root) :
    (p.regenerate edited.root = .error .noCounterpart ∧ p.units.counterpart? edited.root = none) ∨
      ∃ g t, p.regenerate edited.root = .ok g ∧ (p.units.counterpart? edited.root).isSome ∧ Edit.Ordered g.edits ∧
        Edit.applyAll source.text g.edits = .ok t := by
  have hserves : p.Serves { source, root := base.root } := ⟨hunit, (LoadedTree.ofBase_framed hbase).1.hasRange, hforward⟩
  have hfile : ∀ m ∈ edited.root.preorder, ∀ s, m.span = some s → s.file = source.name := fun m hm s hs =>
    ((LoadedTree.ofEdited_framed hbase hedited).hasRange m hm s hs).file
  cases hcp : p.units.counterpart? edited.root with
  | none => exact .inl ⟨by rw [regenerate, hcp]; rfl, rfl⟩
  | some b =>
    obtain ⟨g, t, hg, horder, ht⟩ := hserves.edits_apply hlaminar hfile (by rw [hcp]; rfl)
    exact .inr ⟨g, t, hg, rfl, horder, ht⟩

/-- The source `{a}`. -/
def blockSource : Source := { name := "A.scala", text := ['\x7b', 'a', '\x7d'] }

/-- The document of its tree. -/
def blockText : Text :=
  "[\"A\",[\"block\",null,[0,3],false,null,[],null,[[\"ident\",\"a\",[1,2],false,\"a\"]]]]".toList

/-- The document of the tree with a second statement. The first one is referred to. -/
def longerText : Text :=
  "[\"A\",[\"block\",null,[0,3],false,null,[],null,[\x7b\"ref\":\"a\"\x7d,[\"ident\",null,null,false,\"b\"]]]]".toList

/-- The statement that both trees have. -/
def statement : Node := .mk (.built 0) (some (.range "A.scala" 1 2)) (.ident "a")

/-- The base tree as it loads. -/
def loadedBlock : LoadedTree where
  root := .mk (.built 1) (some (.range "A.scala" 0 3)) (.block [statement])
  ids := [("a", statement)]
  next := 2

/-- The edited tree as it loads. -/
def loadedLonger : LoadedTree where
  root := .mk (.built 3) (some (.range "A.scala" 0 3)) (.block [statement, .mk (.built 2) none (.ident "b")])
  ids := []
  next := 4

/-- A block that was given a second statement: both trees load, and there are edits that can be applied. -/
theorem longer_block_applies :
    let p := plain { source := blockSource, root := loadedBlock.root }
    LoadedTree.ofBase blockSource blockText = .ok loadedBlock ∧
      LoadedTree.ofEdited blockSource longerText loadedBlock = .ok loadedLonger ∧
      (∀ n ∈ loadedBlock.root.preorder, ∀ s, n.span = some s → s.start ≤ s.stop) ∧ Laminar loadedBlock.root ∧
      ∃ g t, p.regenerate loadedLonger.root = .ok g ∧ (p.units.counterpart? loadedLonger.root).isSome ∧
        Edit.Ordered g.edits ∧ Edit.applyAll blockSource.text g.edits = .ok t := by
  intro p
  have hbase : LoadedTree.ofBase blockSource blockText = .ok loadedBlock := by cbv
  have hedited : LoadedTree.ofEdited blockSource longerText loadedBlock = .ok loadedLonger := by cbv
  have hforward : (loadedBlock.root.preorder.all fun n => n.span.all fun s => s.start ≤ s.stop) = true := by cbv
  simp only [List.all_eq_true, Option.all_eq_true, decide_eq_true_eq] at hforward
  have hlaminar : Laminar loadedBlock.root := laminar_of_isLaminar (by cbv)
  have hcp : (p.units.counterpart? loadedLonger.root).isSome = true := by cbv
  refine ⟨hbase, hedited, hforward, hlaminar, (loaded_edits_apply p blockSource blockText longerText loadedBlock
    loadedLonger hbase hedited rfl hforward hlaminar).resolve_left fun h => ?_⟩
  rw [h.2] at hcp
  cases hcp

end Printer

end Reprint
