import Mathlib
import Reprint.Proofs.InStep
/-!
Trees that were built again. A twin of a base tree has the same layers everywhere and may share any of its nodes.
Discovery goes down through placed nodes only (`Reached`), and if children lie within their parents and no slot is
taken twice, each node of the twin is paired with the base node that it was made from. Main statement: a twin makes no
region and no edit.
-/

namespace Reprint

namespace Node

/-- Children lie within their parents. -/
def Nested (root : Node) : Prop :=
  ∀ n ∈ root.preorder, ∀ c ∈ n.children, ∀ s t, n.span = some s → c.span = some t → s.includes t

/-- The nodes that are reached from the root through placed nodes. -/
inductive Reached (root : Node) : Node → Prop where
  | root : Reached root root
  | child {n c : Node} : Reached root n → n.span.isSome → c ∈ n.children → Reached root c

section Reached
variable {root d m : Node} {t q : Span}

theorem Reached.mem_preorder (h : Reached root d) : d ∈ root.preorder := by
  induction h with
  | root => exact root.mem_preorder_self
  | child _ _ hc ih => exact mem_preorder_trans ih (mem_preorder_child hc)

theorem Reached.file_eq (hn : Nested root) (h : Reached root d) (hq : root.span = some q) (ht : d.span = some t) :
    t.file = q.file := by
  induction h generalizing t with
  | root =>
    cases hq.symm.trans ht
    rfl
  | child hreached hsome hc ih =>
    obtain ⟨s, hs⟩ := Option.isSome_iff_exists.mp hsome
    rw [← ih hs, (Span.includes_iff.mp (hn _ hreached.mem_preorder _ hc s t hs ht)).1]

/-- The search at a range gets to every reached node that includes the range. -/
theorem Reached.mem_atRange (hn : Nested root) (h : Reached root d) (ht : d.span = some t) (hq : t.includes q)
    (hm : m ∈ d.atRange q) : m ∈ root.atRange q := by
  induction h generalizing t with
  | root => exact hm
  | child hreached hsome hc ih =>
    obtain ⟨s, hs⟩ := Option.isSome_iff_exists.mp hsome
    have hsq : s.includes q := Span.includes_trans (hn _ hreached.mem_preorder _ hc s t hs ht) hq
    refine ih hs hsq ?_
    rw [atRange_eq, hs, Option.all_some, if_pos hsq]
    exact List.mem_append_right _ (List.mem_flatMap.mpr ⟨_, hc, hm⟩)

end Reached

/-- A tree with the same layers as another one. -/
def Twin (a b : Node) : Prop := InStep (fun _ _ => False) a b

theorem swappable_false : Swappable fun _ _ => False := fun _ _ h => h.elim

theorem twin_of_isInStep {a b : Node} (h : isInStep (fun _ _ => false) a b) : Twin a b :=
  inStep_of_isInStep (fun _ _ h => Bool.false_ne_true h) h

theorem Within.nested {root : Node} (h : Within root) : Nested root := fun n hn c hc =>
  h n hn c (mem_preorder_child hc)

end Node

namespace Units
open Node

/-- A node in the slot of a reached base node is paired with that node. -/
theorem counterpart?_of_reached {u : Units} {root c d : Node} {t : Span} (hn : Nested root) (hd : Distinct root)
    (hreached : Reached root d) (ht : d.span = some t) (hroot : u.tree? t.file = some root) (h : c.sameSlot d) :
    u.counterpart? c = some d :=
  counterpart?_of_mem_atRange hd ht hroot h fun _ hst =>
    have hts := Span.sameRange_symm hst
    hreached.mem_atRange hn ht (Span.includes_of_sameRange hts) (mem_atRange_self (standsAt_iff.mpr ⟨t, ht, hts⟩))

end Units

namespace Region
open Node

/-- Discovery is silent about a twin of any reached node. -/
theorem search_nil_of_twin {u : Units} {root n b : Node} {q : Span} (hn : Nested root) (hd : Distinct root)
    (hq : root.span = some q) (hroot : u.tree? q.file = some root) (hreached : Reached root b) (h : Twin n b) :
    search u n = [] := by
  induction n using children_induction generalizing b with
  | step n ih =>
    refine search_eq_nil_iff.mpr fun base hcp => .inr ?_
    cases h with
    | swap h => exact h.elim
    | layer hlayer hslots =>
      -- A node with a counterpart has a place, and so has the base node that it was made from.
      obtain ⟨r, -, hr, -⟩ := Units.counterpart?_inv hcp
      obtain ⟨-, ⟨-, t, -, ht, -⟩ | ⟨hnone, -⟩⟩ := sameSlot_iff.mp hlayer.slot
      · have hfile := hreached.file_eq hn hq ht
        have hcp' := Units.counterpart?_of_reached hn hd hreached ht (by rw [hfile]; exact hroot) hlayer.slot
        cases hcp.symm.trans hcp'
        refine ⟨agrees_of_sameLayer swappable_false hlayer hslots fun _ _ _ _ h => h.elim, fun c hc => ?_⟩
        have hchildren := forall₂_children swappable_false hlayer hslots
        obtain ⟨i, hi⟩ := List.getElem?_of_mem hc
        have hlt := hchildren.length_eq ▸ (List.getElem?_eq_some_iff.mp hi).1
        have hib := List.getElem?_eq_getElem hlt
        exact ih c hc (.child hreached (by rw [ht]; rfl) (List.mem_of_getElem? hib)) (getElem?_of_forall₂ hchildren hi hib)
      · rw [hr] at hnone
        cases hnone

end Region

namespace Printer
open Node Region

/-- A base tree built again, in whole or in part, makes no region and no edit. -/
theorem twin_unedited (p : Printer) (c : CompilationUnit) (q : Span) (edited : Node)
    (hunit : p.units.get? q.file = some c) (hq : c.root.span = some q) (hnested : Nested c.root)
    (hdistinct : Distinct c.root) (htwin : Twin edited c.root) :
    find p.units edited = [] ∧ p.regenerate edited = .ok { edits := [], diagnostics := [] } := by
  have hroot : p.units.tree? q.file = some c.root := by rw [Units.tree?, hunit, Option.map_some]
  have hfind : find p.units edited = [] :=
    find_eq_nil_iff.mpr (search_nil_of_twin hnested hdistinct hq hroot .root htwin)
  have hcp := Units.counterpart?_of_reached hnested hdistinct .root hq hroot (htwin.slot swappable_false)
  refine ⟨hfind, regenerate_eq_ok_iff.mpr ⟨by rw [hcp]; rfl, ?_⟩⟩
  rw [hfind]
  exact Yields.mapM_nil_iff.mpr ⟨rfl, rfl⟩

/-- The class `class A extends B(c)`. Its nodes are numbered from `serial` on, but for the argument. -/
def subclass (serial : Nat) : Node :=
  .mk (.built serial) (some (.range "A.scala" 0 20)) (.classDef [] { text := "A", span := some (.range "A.scala" 6 7) }
    [] (.mk (.built (serial + 1)) (some (.range "A.scala" 8 20)) (.template
      [.mk (.built (serial + 2)) (some (.range "A.scala" 16 17)) (.ident "B")]
      [.mk (.built 0) (some (.range "A.scala" 18 19)) (.ident "c")] none [])))

/-- The unit of that class. -/
def subclassUnit : CompilationUnit where
  source := { name := "A.scala", text := "class A extends B(c)".toList }
  root := subclass 1

/-- The class built again around the argument that it had: the call of the super constructor is another node, and
nothing is printed. -/
theorem subclass_unedited :
    Nested subclassUnit.root ∧ Distinct subclassUnit.root ∧ Twin (subclass 4) subclassUnit.root ∧
      find (plain subclassUnit).units (subclass 4) = [] ∧
      (plain subclassUnit).regenerate (subclass 4) = .ok { edits := [], diagnostics := [] } := by
  have hplaced : WellPlaced subclassUnit.root := wellPlaced_of_isWellPlaced (by cbv)
  have htwin : Twin (subclass 4) subclassUnit.root := twin_of_isInStep (by cbv)
  exact ⟨hplaced.within.nested, hplaced.distinct, htwin,
    twin_unedited (plain subclassUnit) subclassUnit (.range "A.scala" 0 20) (subclass 4) rfl rfl hplaced.within.nested
      hplaced.distinct htwin⟩

end Printer

end Reprint
