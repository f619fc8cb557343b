import Mathlib
import Reprint.Proofs.Exchange
import Reprint.Proofs.Rebuilt
import Reprint.Proofs.Surroundings
/-!
Leaves that were exchanged. An edited tree keeps all places and all content, except that identifiers got other names
and literals other values; the nodes around them may have been built again or be shared. Discovery then finds exactly
the new leaves, one region each, and none of them is lost among the widest. Main statement: the text after
regeneration is the base text with each of these ranges exchanged for the new name or value, and nothing else.
-/

namespace Reprint

namespace Node

/-! ### Places of leaves -/

/-- Siblings do not overlap. -/
def SiblingsApart (root : Node) : Prop :=
  ∀ n ∈ root.preorder, ∀ (i j : Nat) (a b : Node), i ≠ j → n.children[i]? = some a → n.children[j]? = some b →
    ∀ s t, a.span = some s → b.span = some t → ¬s.overlaps t

section Placed
variable {root : Node}

theorem Nested.within (hnested : Nested root) (hplaced : ∀ n ∈ root.preorder, n.span.isSome) : Within root := by
  intro n hn m hm s t hs ht
  induction n using children_induction generalizing s with
  | step n ih =>
    rcases mem_preorder_iff.mp hm with rfl | ⟨c, hc, hmc⟩
    · cases hs.symm.trans ht
      exact Span.includes_refl _
    · have hmem := mem_preorder_trans hn (mem_preorder_child hc)
      obtain ⟨r, hr⟩ := Option.isSome_iff_exists.mp (hplaced c hmem)
      exact Span.includes_trans (hnested n hn c hc s r hs hr) (ih c hc hmem hmc r hr)

theorem SiblingsApart.apart (hapart : SiblingsApart root) (hwithin : Within root)
    (hplaced : ∀ n ∈ root.preorder, n.span.isSome) : Apart root := by
  intro n hn i j a b hij ha hb x hx y hy s t hs ht hst
  have hamem := mem_preorder_trans hn (mem_preorder_child (List.mem_of_getElem? ha))
  have hbmem := mem_preorder_trans hn (mem_preorder_child (List.mem_of_getElem? hb))
  obtain ⟨r, hr⟩ := Option.isSome_iff_exists.mp (hplaced a hamem)
  obtain ⟨q, hq⟩ := Option.isSome_iff_exists.mp (hplaced b hbmem)
  have hrs := Span.includes_iff.mp (hwithin a hamem x hx r s hr hs)
  have hqt := Span.includes_iff.mp (hwithin b hbmem y hy q t hq ht)
  have hst := Span.overlaps_iff.mp hst
  refine hapart n hn i j a b hij ha hb r q hr hq (Span.overlaps_iff.mpr ⟨?_, by omega, by omega⟩)
  rw [hrs.1, hqt.1, hst.1]

/-- A node overlaps those that come later in a tree only if they are below it. -/
theorem WellPlaced.pairwise (h : WellPlaced root) : root.preorder.Pairwise fun a b =>
    b ∈ a.children.flatMap preorder ∨ ∀ s t, a.span = some s → b.span = some t → ¬s.overlaps t := by
  have hapart := h.apart
  induction root using children_induction with
  | step n ih =>
    have hsub : ∀ c ∈ n.children, WellPlaced c := fun c hc =>
      have hmem := mem_preorder_child hc
      ⟨h.within.sub hmem, fun m hm => h.apart m (mem_preorder_trans hmem hm),
        fun a ha b hb => h.distinct a (mem_preorder_trans hmem ha) b (mem_preorder_trans hmem hb)⟩
    rw [preorder_eq, List.pairwise_cons, List.pairwise_flatMap]
    refine ⟨fun b hb => .inl hb, fun c hc => ih c hc (hsub c hc) (hsub c hc).apart, ?_⟩
    refine List.pairwise_iff_getElem.mpr fun i j hi hj hij x hx y hy => .inr ?_
    exact hapart n n.mem_preorder_self i j _ _ (Nat.ne_of_lt hij) (List.getElem?_eq_getElem hi)
      (List.getElem?_eq_getElem hj) x hx y hy

end Placed

/-! ### Exchanged leaves -/

/-- What stands in a text for an identifier or a literal. -/
def inscription (n : Node) : Text :=
  match n.kind with
  | .ident name => name.toList
  | .literal value => value.render
  | _ => []

/-- Whether a leaf took the place of another one, which is not empty: an identifier with another name, or a literal
with another value than one that was no double. -/
def isRenewed (a b : Node) : Bool :=
  a.sameSlot b && b.span.any (fun s => s.start < s.stop) &&
    match a.kind, b.kind with
    | .ident x, .ident y => x != y
    | .literal _, .literal (.double _) => false
    | .literal x, .literal y => x != y
    | _, _ => false

/-- The leaves that took the places of others, with these places. -/
def renewals (edited base : Node) : List (Node × Span) :=
  (edited.preorder.zip base.preorder).filterMap fun x =>
    if isRenewed x.1 x.2 then x.2.span.map fun s => (x.1, s) else none

/-- What is known of a leaf and the one whose place it took. -/
structure Renewal (a b : Node) : Prop where
  slot : a.sameSlot b
  place : ∃ s, b.span = some s ∧ s.start < s.stop
  differs : a.contentDiffers b = true
  text : Printer.leafText? a = some a.inscription
  leaf : a.children = []
  baseLeaf : b.children = []
  simple : a.isDefinition = false
  selected : a.tag ≠ .ident → a.selected = b.selected

section Renewed
variable {a b : Node}

theorem renewal_of_isRenewed (h : isRenewed a b) : Renewal a b := by
  rw [isRenewed, Bool.and_eq_true, Bool.and_eq_true, Option.any_eq_true] at h
  obtain ⟨⟨hslot, s, hs, hlt⟩, hkind⟩ := h
  have hplace : ∃ s, b.span = some s ∧ s.start < s.stop := ⟨s, hs, of_decide_eq_true hlt⟩
  obtain ⟨i, q, k⟩ := a
  obtain ⟨j, r, l⟩ := b
  simp only [kind] at hkind
  split at hkind
  · exact ⟨hslot, hplace, hkind, rfl, rfl, rfl, rfl, fun h => absurd rfl h⟩
  · cases hkind
  · next x y hdouble =>
    refine ⟨hslot, hplace, ?_, rfl, rfl, rfl, rfl, fun _ => rfl⟩
    show (!x.same y) = true
    rw [Constant.same]
    · simpa using hkind
    · rintro - d - rfl
      exact hdouble d rfl
  · cases hkind

theorem isRenewed_self (a : Node) : isRenewed a a = false := by
  obtain ⟨i, s, k⟩ := a
  cases k with
  | ident name => simp [isRenewed, kind]
  | literal value => cases value <;> simp [isRenewed, kind]
  | _ => simp [isRenewed, kind]

theorem swappable_isRenewed : Swappable fun a b => isRenewed a b := fun _ _ h =>
  ⟨(renewal_of_isRenewed h).slot, (renewal_of_isRenewed h).simple⟩

/-- A tree with the same layers as another one, but for exchanged leaves. -/
def Retouched (a b : Node) : Prop := InStep (fun x y => isRenewed x y) a b

theorem retouched_of_isInStep (h : isInStep isRenewed a b) : Retouched a b :=
  inStep_of_isInStep (fun _ _ h => h) h

theorem Retouched.slot (h : Retouched a b) : a.sameSlot b := InStep.slot swappable_isRenewed h

theorem Retouched.children (h : Retouched a b) : List.Forall₂ Retouched a.children b.children := by
  cases h with
  | layer hlayer hslots => exact forall₂_children swappable_isRenewed hlayer hslots
  | swap h =>
    have h := renewal_of_isRenewed h
    rw [h.leaf, h.baseLeaf]
    exact .nil

theorem Retouched.length_preorder (h : Retouched a b) : a.preorder.length = b.preorder.length := by
  induction a using children_induction generalizing b with
  | step a ih =>
    have hlengths : List.Forall₂ (fun x y => x.preorder.length = y.preorder.length) a.children b.children := by
      refine forall₂_of_getElem? h.children.length_eq fun i x y hx hy => ?_
      exact ih x (List.mem_of_getElem? hx) (getElem?_of_forall₂ h.children hx hy)
    rw [preorder_eq, preorder_eq, List.length_cons, List.length_cons, List.length_flatMap, List.length_flatMap]
    congr 2
    exact List.forall₂_eq_eq_eq ▸ List.forall₂_map_left_iff.mpr (List.forall₂_map_right_iff.mpr hlengths)

end Renewed

/-- Lists of equal lengths can be joined before they are zipped or after. -/
theorem zip_flatMap {α β : Type} {f : α → List β} {l k : List α}
    (h : List.Forall₂ (fun x y => (f x).length = (f y).length) l k) :
    (l.flatMap f).zip (k.flatMap f) = (l.zip k).flatMap fun x => (f x.1).zip (f x.2) := by
  induction h with
  | nil => rfl
  | cons hxy _ ih =>
    rw [List.flatMap_cons, List.flatMap_cons, List.zip_append hxy, ih, List.zip_cons_cons, List.flatMap_cons]

section Renewals
variable {a b root : Node}

theorem renewals_eq (h : Retouched a b) : renewals a b =
    (if isRenewed a b then (b.span.map fun s => (a, s)).toList else []) ++
      (a.children.zip b.children).flatMap fun x => renewals x.1 x.2 := by
  have hlengths := h.children.imp fun _ _ h => h.length_preorder
  rw [renewals, preorder_eq a, preorder_eq b, List.zip_cons_cons, zip_flatMap hlengths, List.filterMap_cons,
    List.filterMap_flatMap]
  cases isRenewed a b with
  | false => rfl
  | true => cases b.span <;> rfl

theorem renewals_self (a : Node) : renewals a a = [] := by
  refine List.filterMap_eq_nil_iff.mpr fun x hx => ?_
  obtain ⟨i, hi⟩ := List.getElem?_of_mem hx
  obtain ⟨h₁, h₂⟩ := List.getElem?_zip_eq_some.mp hi
  rw [Option.some.inj (h₁.symm.trans h₂), isRenewed_self]
  rfl

theorem mem_renewals {x : Node × Span} (h : x ∈ renewals a b) :
    ∃ d ∈ b.preorder, isRenewed x.1 d ∧ d.span = some x.2 ∧ x.1 ∈ a.preorder := by
  obtain ⟨⟨n, d⟩, hmem, hx⟩ := List.mem_filterMap.mp h
  obtain ⟨hn, hd⟩ := List.of_mem_zip hmem
  split at hx
  · next hrenewed =>
    obtain ⟨s, hs, rfl⟩ := Option.map_eq_some_iff.mp hx
    exact ⟨d, hd, hrenewed, hs, hn⟩
  · cases hx

/-- The places of exchanged leaves do not overlap. -/
theorem pairwise_renewals (hplaced : WellPlaced b) (h : Retouched a b) :
    (renewals a b).Pairwise fun x y => ¬x.2.overlaps y.2 := by
  have hsnd : (a.preorder.zip b.preorder).map Prod.snd = b.preorder :=
    List.map_snd_zip (Nat.le_of_eq h.length_preorder.symm)
  have hpairs := hplaced.pairwise
  rw [← hsnd, List.pairwise_map] at hpairs
  refine List.pairwise_filterMap.mpr (hpairs.imp ?_)
  rintro ⟨n, d⟩ ⟨m, e⟩ hde x hx y hy
  split at hx
  · next hrenewed =>
    obtain ⟨s, hs, rfl⟩ := Option.map_eq_some_iff.mp hx
    split at hy
    · obtain ⟨t, ht, rfl⟩ := Option.map_eq_some_iff.mp hy
      rcases hde with hbelow | hapart
      · -- Nothing is below a leaf.
        rw [(renewal_of_isRenewed hrenewed).baseLeaf] at hbelow
        cases hbelow
      · exact hapart s t hs ht
    · cases hy
  · cases hx

end Renewals

/-- No identifier stands by itself among what an import selects. -/
def SelectorsApart (root : Node) : Prop :=
  ∀ n ∈ root.preorder, n.tag = .importDecl → ∀ x ∈ n.kind.slots.tail, x.tag ≠ .ident

theorem Sharing.child {n base c : Node} (h : Sharing n base) (hc : c ∈ n.children) : Sharing c base := fun m hm =>
  h m (mem_preorder_of_child hc hm)

/-- Nodes that differ only in leaves further down agree. -/
theorem Retouched.agrees {root n b : Node} (hselectors : SelectorsApart root) (hb : b ∈ root.preorder)
    (h : Retouched n b) (hkept : isRenewed n b = false) : n.Agrees b := by
  cases h with
  | swap h => exact absurd h (by rw [hkept]; exact Bool.false_ne_true)
  | layer hlayer hslots =>
    refine agrees_of_sameLayer swappable_isRenewed hlayer hslots fun htag x hx y hxy => ?_
    refine (renewal_of_isRenewed hxy).selected fun hident => ?_
    -- The base tree has an identifier in the same slot.
    rw [← List.drop_one] at hx
    obtain ⟨i, hi⟩ := List.getElem?_of_mem hx
    have hall := List.forall₂_drop 1 (forall₂_slots hlayer hslots)
    have hlt := hall.length_eq ▸ (List.getElem?_eq_some_iff.mp hi).1
    have hbase := List.getElem?_eq_getElem hlt
    have hslot := (getElem?_of_forall₂ hall hi hbase).slot swappable_isRenewed
    refine hselectors b hb (hlayer.tag_eq ▸ htag) _ ?_ ((sameSlot_iff.mp hslot).1.symm.trans hident)
    rw [← List.drop_one]
    exact List.mem_of_getElem? hbase

end Node

/-- Every node has its place in the text: it lies within its parent, clear of its siblings, and is the only one of
its kind there. -/
structure CompilationUnit.Located (c : CompilationUnit) : Prop where
  placed : ∀ n ∈ c.root.preorder, n.span.isSome
  fits : c.Fits
  nested : c.root.Nested
  apart : c.root.SiblingsApart
  distinct : c.root.Distinct

theorem CompilationUnit.Located.wellPlaced {c : CompilationUnit} (h : c.Located) : c.root.WellPlaced :=
  have hwithin := h.nested.within h.placed
  ⟨hwithin, h.apart.apart hwithin h.placed, h.distinct⟩

/-- Decides whether every node has its place in the text. -/
def CompilationUnit.isLocated (c : CompilationUnit) : Bool :=
  c.root.isWellPlaced && c.root.preorder.all fun n =>
    n.span.any fun s => c.source.text.isBoundary s.start && c.source.text.isBoundary s.stop

theorem CompilationUnit.located_of_isLocated {c : CompilationUnit} (h : c.isLocated) : c.Located := by
  obtain ⟨hplaced, hall⟩ := Bool.and_eq_true_iff.mp h
  have hplaced := Node.wellPlaced_of_isWellPlaced hplaced
  simp only [List.all_eq_true, Option.any_eq_true, Bool.and_eq_true] at hall
  refine ⟨fun n hn => ?_, fun n hn s hs => ?_, hplaced.within.nested, ?_, hplaced.distinct⟩
  · obtain ⟨s, hs, -⟩ := hall n hn
    rw [hs]
    rfl
  · obtain ⟨t, ht, hfits⟩ := hall n hn
    cases hs.symm.trans ht
    exact hfits
  · intro n hn i j a b hij ha hb
    exact hplaced.apart n hn i j a b hij ha hb a a.mem_preorder_self b b.mem_preorder_self

namespace Region
open Node

theorem flatMap_zip_of_forall₂ {α β : Type} {R : α → α → Prop} {f : α → List β} {g : α × α → List β} {l k : List α}
    (h : List.Forall₂ R l k) (hfg : ∀ x ∈ l, ∀ y ∈ k, R x y → f x = g (x, y)) :
    l.flatMap f = (l.zip k).flatMap g := by
  induction h with
  | nil => rfl
  | @cons x y l k hxy _ ih =>
    rw [List.flatMap_cons, List.zip_cons_cons, List.flatMap_cons,
      hfg x (List.mem_cons_self ..) y (List.mem_cons_self ..) hxy,
      ih fun x hx y hy => hfg x (List.mem_cons_of_mem _ hx) y (List.mem_cons_of_mem _ hy)]

section Search
variable {u : Units} {c : CompilationUnit} {q : Span}

/-- Discovery finds the exchanged leaves, each by itself. -/
theorem search_eq_renewals (hunit : u.get? q.file = some c) (hq : c.root.span = some q) (hc : c.Located)
    (hselectors : SelectorsApart c.root) {n b : Node} (hb : b ∈ c.root.preorder) (h : Retouched n b)
    (hsharing : Sharing n c.root) : search u n = (renewals n b).map fun x => Region.of u x.1 x.2 := by
  induction n using children_induction generalizing b with
  | step n ih =>
    obtain ⟨t, ht⟩ := Option.isSome_iff_exists.mp (hc.placed b hb)
    have hfile : t.file = q.file := (Span.includes_iff.mp
      (hc.wellPlaced.within _ c.root.mem_preorder_self b hb q t hq ht)).1.symm
    have htree : u.tree? t.file = some c.root := by rw [Units.tree?, hfile, hunit, Option.map_some]
    have hcp := Units.counterpart?_of_sameSlot hc.wellPlaced.within hc.distinct hb ht htree h.slot
    rw [search_eq]
    simp only [hcp, ht]
    cases hsame : n.same b with
    | true =>
      rw [if_pos rfl, hsharing n n.mem_preorder_self b hb hsame, renewals_self]
      rfl
    | false =>
      rw [if_neg Bool.false_ne_true, renewals_eq h]
      cases hrenewed : isRenewed n b with
      | true =>
        have hrenewal := renewal_of_isRenewed hrenewed
        rw [if_pos hrenewal.differs, hrenewal.leaf, if_pos rfl, ht]
        rfl
      | false =>
        obtain ⟨hcontent, hchildren⟩ := h.agrees hselectors hb hrenewed
        rw [hcontent, hchildren, if_neg Bool.false_ne_true, if_neg Bool.false_ne_true, if_neg Bool.false_ne_true,
          List.nil_append, List.map_flatMap]
        refine flatMap_zip_of_forall₂ h.children fun x hx y hy hxy => ?_
        exact ih x hx (mem_preorder_trans hb (mem_preorder_child hy)) hxy (hsharing.child hx)

end Search

end Region

namespace Printer
open Node

/-! ### Printing -/

/-- The edit that puts a leaf in its place. -/
def leafEdit (x : Node × Span) : Edit where
  start := x.2.start
  stop := x.2.stop
  replacement := x.1.inscription
  message := "Regenerate " ++ x.1.tag.name

section Printing
variable {p : Printer} {a b : Node} {s : Span}

/-- A leaf that took the place of another one is printed as it is written. -/
theorem printRegion_leaf (hcp : p.units.counterpart? a = some b) (hs : b.span = some s) (hother : a.same b = false)
    (h : Renewal a b) (hlayout : ∃ l, Layout.around p.units b = .ok l) (ds : List Diagnostic) :
    Yields (p.printRegion (.of p.units a s)) ds a.inscription ds := by
  obtain ⟨l, hl⟩ := hlayout
  have hchanged : a ∈ a.changedNodes p.units := by
    rw [changedNodes, hcp]
    simp only [hother, h.differs, Bool.true_or, if_true, Bool.false_eq_true, if_false]
    exact List.mem_cons_self ..
  have hpristine : a.isPristine (Region.of p.units a s).changed b = false :=
    isPristine_of_contains hother (NodeSet.contains_ofList hchanged)
  have hleaf : a.children.isEmpty = true := by rw [h.leaf]; rfl
  refine Yields.bind_iff.mpr ⟨{ leading := l.leading, center := a.inscription, trailing := l.trailing }, ds, ?_,
    Yields.pure_iff.mpr ⟨rfl, rfl⟩⟩
  show Yields (p.printIn _ none a) ds _ ds
  rw [printIn]
  simp only [hcp, hs, hpristine, hleaf, if_true, Bool.false_eq_true, if_false, printLeaf, h.text]
  exact Yields.bind_iff.mpr ⟨l, ds, Yields.lift_iff.mpr ⟨hl, rfl⟩, Yields.bind_iff.mpr ⟨_, ds,
    Yields.pure_iff.mpr ⟨rfl, rfl⟩, Yields.lift_iff.mpr ⟨rfl, rfl⟩⟩⟩

end Printing

section Regions
variable {p : Printer} {c : CompilationUnit} {q : Span} {edited : Node}

theorem file_eq_of_located (hq : c.root.span = some q) (hc : c.Located) {b : Node} {s : Span}
    (hb : b ∈ c.root.preorder) (hs : b.span = some s) : s.file = q.file :=
  (Span.includes_iff.mp (hc.wellPlaced.within _ c.root.mem_preorder_self b hb q s hq hs)).1.symm

theorem editOf_leaf (hunit : p.units.get? q.file = some c) (hq : c.root.span = some q) (hc : c.Located)
    (hsharing : Sharing edited c.root) {x : Node × Span} (hx : x ∈ renewals edited c.root) (ds : List Diagnostic) :
    Yields (p.editOf (.of p.units x.1 x.2)) ds (leafEdit x) ds := by
  obtain ⟨b, hb, hrenewed, hs, hmem⟩ := mem_renewals hx
  have hfile := file_eq_of_located hq hc hb hs
  have hknown : p.units.get? x.2.file = some c := by rw [hfile, hunit]
  have htree : p.units.tree? x.2.file = some c.root := by rw [Units.tree?, hknown, Option.map_some]
  have hrenewal := renewal_of_isRenewed hrenewed
  have hcp := Units.counterpart?_of_sameSlot hc.wellPlaced.within hc.distinct hb hs htree hrenewal.slot
  have hother : x.1.same b = false := by
    rw [Bool.eq_false_iff]
    intro hsame
    rw [hsharing x.1 hmem b hb hsame, isRenewed_self] at hrenewed
    cases hrenewed
  exact Yields.bind_iff.mpr ⟨_, ds, printRegion_leaf hcp hs hother hrenewal (Layout.around_ok hknown hc.fits hb hs) ds,
    Yields.pure_iff.mpr ⟨rfl, rfl⟩⟩

/-- The places of exchanged leaves: ranges of the file with something in them. -/
theorem place_of_mem_renewals (hq : c.root.span = some q) (hc : c.Located) {x : Node × Span}
    (hx : x ∈ renewals edited c.root) : x.2.file = q.file ∧ x.2.start < x.2.stop ∧ (leafEdit x).fits c.source.text := by
  obtain ⟨b, hb, hrenewed, hs, -⟩ := mem_renewals hx
  obtain ⟨s, hs', hlt⟩ := (renewal_of_isRenewed hrenewed).place
  cases hs.symm.trans hs'
  obtain ⟨hstart, hstop⟩ := hc.fits b hb _ hs
  refine ⟨file_eq_of_located hq hc hb hs, hlt, ?_⟩
  simp only [Edit.fits, leafEdit, hstart, hstop, Nat.le_of_lt hlt, decide_true, Bool.and_self]

theorem aligned_renewals (hq : c.root.span = some q) (hc : c.Located) (h : Retouched edited c.root) :
    ∀ x ∈ renewals edited c.root, ∀ y ∈ renewals edited c.root, x.2.Aligned y.2 := by
  intro x hx y hy
  obtain ⟨hxfile, hxlt, -⟩ := place_of_mem_renewals hq hc hx
  obtain ⟨hyfile, hylt, -⟩ := place_of_mem_renewals hq hc hy
  refine ⟨hxfile.trans hyfile.symm, Nat.le_of_lt hxlt, Nat.le_of_lt hylt, ?_⟩
  have : Std.Symm fun x y : Node × Span => ¬x.2.overlaps y.2 := ⟨fun _ _ h h' => h (Span.overlaps_symm h')⟩
  by_cases hxy : x = y
  · rw [hxy]
    exact .inl (Span.includes_refl _)
  · exact .inr (.inr ((pairwise_renewals hc.wellPlaced h).forall hx hy hxy))

/-- Of the places of exchanged leaves none includes another one. -/
theorem antichain_renewals (hq : c.root.span = some q) (hc : c.Located) (h : Retouched edited c.root) :
    (renewals edited c.root).Pairwise fun x y => ¬x.2.includes y.2 ∧ ¬y.2.includes x.2 := by
  refine (pairwise_renewals hc.wellPlaced h).imp_of_mem fun {x y} hx hy hxy => ?_
  have hxlt := (place_of_mem_renewals hq hc hx).2.1
  have hylt := (place_of_mem_renewals hq hc hy).2.1
  constructor
  · intro hinc
    obtain ⟨hfile, hstart, hstop⟩ := Span.includes_iff.mp hinc
    exact hxy (Span.overlaps_iff.mpr ⟨hfile, by omega, by omega⟩)
  · intro hinc
    obtain ⟨hfile, hstart, hstop⟩ := Span.includes_iff.mp hinc
    exact hxy (Span.overlaps_iff.mpr ⟨hfile.symm, by omega, by omega⟩)

/-- The regions of exchanged leaves are all kept, and stand one behind the other. -/
theorem find_renewals (hunit : p.units.get? q.file = some c) (hq : c.root.span = some q) (hc : c.Located)
    (hselectors : SelectorsApart c.root) (hsharing : Sharing edited c.root) (h : Retouched edited c.root) :
    (Region.find p.units edited).Perm ((renewals edited c.root).map fun x => .of p.units x.1 x.2) ∧
      (Region.find p.units edited).Pairwise fun r r' =>
        r.range.start < r'.range.start ∧ r.range.stop ≤ r'.range.start := by
  rw [Region.find, Region.search_eq_renewals hunit hq hc hselectors c.root.mem_preorder_self h hsharing]
  refine ⟨Region.widest_perm (List.pairwise_map.mpr (antichain_renewals hq hc h)),
    Region.widest_ordered fun r hr r' hr' => ?_⟩
  obtain ⟨x, hx, rfl⟩ := List.mem_map.mp hr
  obtain ⟨y, hy, rfl⟩ := List.mem_map.mp hr'
  exact aligned_renewals hq hc h x hx y hy

end Regions

/-- Where only leaves were exchanged, there is one edit for each of them, and the text becomes the base text with the
ranges of these leaves exchanged for what is written now. -/
theorem leaves_exchanged (p : Printer) (c : CompilationUnit) (q : Span) (edited : Node)
    (hunit : p.units.get? q.file = some c) (hq : c.root.span = some q) (hc : c.Located)
    (hselectors : SelectorsApart c.root) (hsharing : Sharing edited c.root) (h : Retouched edited c.root) :
    ∃ edits t, p.regenerate edited = .ok { edits, diagnostics := [] } ∧
      edits.Perm ((renewals edited c.root).map leafEdit) ∧
      Edit.applyAll c.source.text edits = .ok t ∧ Edit.Exchanged 0 edits c.source.text t := by
  obtain ⟨hperm, horder⟩ := find_renewals hunit hq hc hselectors hsharing h
  have hmem : ∀ r ∈ Region.find p.units edited, ∃ x ∈ renewals edited c.root, Region.of p.units x.1 x.2 = r :=
    fun r hr => List.mem_map.mp (hperm.mem_iff.mp hr)
  have hyields : Yields ((Region.find p.units edited).mapM p.editOf) []
      ((Region.find p.units edited).map fun r => leafEdit (r.top, r.range)) [] := by
    refine Yields.mapM_of_forall fun r hr => ?_
    obtain ⟨x, hx, rfl⟩ := hmem r hr
    exact editOf_leaf hunit hq hc hsharing hx []
  have hfits : ∀ e ∈ (Region.find p.units edited).map (fun r => leafEdit (r.top, r.range)), e.fits c.source.text := by
    intro e he
    obtain ⟨r, hr, rfl⟩ := List.mem_map.mp he
    obtain ⟨x, hx, rfl⟩ := hmem r hr
    exact (place_of_mem_renewals hq hc hx).2.2
  obtain ⟨t, ht, hexchanged⟩ := Edit.applyAll_of_ordered hfits (List.pairwise_map.mpr horder)
  refine ⟨_, t, regenerate_eq_ok_iff.mpr ⟨?_, hyields⟩, ?_, ht, hexchanged⟩
  · have htree : p.units.tree? q.file = some c.root := by rw [Units.tree?, hunit, Option.map_some]
    rw [Units.counterpart?_of_sameSlot hc.wellPlaced.within hc.distinct c.root.mem_preorder_self hq htree h.slot]
    rfl
  · have hedits := hperm.map fun r => leafEdit (r.top, r.range)
    rwa [List.map_map] at hedits

/-- The call of `f` with a name and a number. But for `f`, its nodes are numbered from `serial` on. -/
def callOf (serial : Nat) (name : String) (n : Int) : Node :=
  .mk (.built serial) (some (.range "A.scala" 0 8)) (.apply (.mk (.built 0) (some (.range "A.scala" 0 1)) (.ident "f"))
    [.mk (.built (serial + 1)) (some (.range "A.scala" 2 3)) (.ident name),
     .mk (.built (serial + 2)) (some (.range "A.scala" 5 7)) (.literal (.int n))])

/-- The unit `f(a, 12)`. -/
def callUnit : CompilationUnit where
  source := { name := "A.scala", text := "f(a, 12)".toList }
  root := callOf 1 "a" 12

theorem preorder_callOf (serial : Nat) (name : String) (n : Int) : (callOf serial name n).preorder =
    callOf serial name n :: (callOf serial name n).children := by
  simp [preorder_eq, callOf, children]

theorem sharing_callOf : Sharing (callOf 4 "size" (-7)) callUnit.root := by
  intro n hn b hb hsame
  have hid := same_iff.mp hsame
  rw [callUnit, preorder_callOf] at hb
  rw [preorder_callOf] at hn
  simp only [callOf, children, List.mem_cons, List.not_mem_nil, or_false] at hn hb
  rcases hn with rfl | rfl | rfl | rfl <;> rcases hb with rfl | rfl | rfl | rfl <;> first | rfl | cases hid

/-- Both arguments of the call are exchanged, around the `f` that it had: the text becomes `f(size, -7)`. -/
theorem callOf_exchanged :
    let edited := callOf 4 "size" (-7)
    callUnit.Located ∧ SelectorsApart callUnit.root ∧ Sharing edited callUnit.root ∧ Retouched edited callUnit.root ∧
      ((renewals edited callUnit.root).map leafEdit).map (fun e => (e.start, e.stop, e.replacement)) =
        [(2, 3, ['s', 'i', 'z', 'e']), (5, 7, ['-', '7'])] ∧
      ∃ edits t, (plain callUnit).regenerate edited = .ok { edits, diagnostics := [] } ∧
        edits.Perm ((renewals edited callUnit.root).map leafEdit) ∧
        Edit.applyAll callUnit.source.text edits = .ok t ∧ Edit.Exchanged 0 edits callUnit.source.text t := by
  have hlocated : callUnit.Located := CompilationUnit.located_of_isLocated (by cbv)
  have hselectors : SelectorsApart callUnit.root := by
    intro n hn htag
    rw [callUnit, preorder_callOf] at hn
    simp only [callOf, children, List.mem_cons, List.not_mem_nil, or_false] at hn
    rcases hn with rfl | rfl | rfl | rfl <;> cases htag
  have hretouched : Retouched (callOf 4 "size" (-7)) callUnit.root := retouched_of_isInStep (by cbv)
  exact ⟨hlocated, hselectors, sharing_callOf, hretouched, by cbv,
    leaves_exchanged (plain callUnit) callUnit (.range "A.scala" 0 8) (callOf 4 "size" (-7)) rfl rfl hlocated hselectors
      sharing_callOf hretouched⟩

end Printer

end Reprint
