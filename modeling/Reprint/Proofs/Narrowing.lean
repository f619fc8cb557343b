import Mathlib
import Reprint.Proofs.Call
import Reprint.Proofs.Exchange
import Reprint.Proofs.Rebuilt
/-!
One new statement in a sequence. The sequence may stand anywhere in the tree: from it up to the root every node was
built again around one child (`BuiltAround`), and everything beside this path was kept or is a twin of what it was.
Main statement: the only region is the place of the old statement, and the only edit puts the new one there, printed
from scratch, with its later lines indented as the line that the old one began on (`Text.hang`).
-/

namespace Reprint

namespace Text

/-! ### Lines -/

/-- Lines below a first one, of which the later ones are indented unless they are blank. -/
def hang (indent : Text) : List Text → List Text
  | [] => []
  | first :: rest => first :: rest.map fun line => if line.allBlank then line else indent ++ line

theorem not_mem_indentationAt (t : Text) (offset : Nat) : '\n' ∉ t.indentationAt offset := fun h =>
  absurd (List.mem_takeWhile_imp h) (by decide)

/-- The lines of a text that was indented. -/
theorem lines_indentLines {t indent : Text} (hindent : '\n' ∉ indent) :
    (t.indentLines indent).lines = hang indent t.lines := by
  obtain ⟨first, rest, h⟩ := exists_lines t
  have hline : ∀ line : Text, reindentLine line [] indent = if line.allBlank then line else indent ++ line := by
    intro line
    rw [reindentLine, List.isPrefixOf_nil_left, if_pos rfl, List.length_nil, List.drop_zero]
  rw [indentLines, lines_reindent hindent h, h, hang]
  simp only [hline]

end Text

namespace Node

/-! ### Trees with one new statement -/

/-- A node that was built again in its slot, with its content and with the children it had, kept or built again as
well, except for the one at index `i`. -/
structure BuiltAround (i : Nat) (a b : Node) : Prop where
  slot : a.sameSlot b
  placed : b.span.isSome
  other : a.same b = false
  content : a.contentDiffers b = false
  length : a.children.length = b.children.length
  beside : ∀ (j : Nat) (c d : Node), j ≠ i → a.children[j]? = some c → b.children[j]? = some d → c = d ∨ Twin c d

/-- A tree in which the node `new`, which has no place, stands for a statement at `place`: the sequence and all nodes
above it were built again. -/
inductive Restated (new : Node) (place : Span) : Node → Node → Prop where
  | sequence {i : Nat} {a b old : Node} : BuiltAround i a b → b.isSequence → a.children[i]? = some new →
      new.span = none → b.children[i]? = some old → old.span = some place → Restated new place a b
  | above {i : Nat} {a b c d : Node} : BuiltAround i a b → a.children[i]? = some c → b.children[i]? = some d →
      Restated new place c d → Restated new place a b

section Restated
variable {new a b c d old : Node} {place : Span} {i j : Nat}

theorem Restated.slot (h : Restated new place a b) : a.sameSlot b := by
  cases h with
  | sequence h => exact h.slot
  | above h => exact h.slot

theorem Restated.not_placed (h : Restated new place a b) : new.span = none := by
  induction h with
  | sequence _ _ _ hnone => exact hnone
  | above _ _ _ _ ih => exact ih

theorem slot_of_kept (h : c = d ∨ Twin c d) : c.sameSlot d := by
  rcases h with rfl | h
  · exact c.sameSlot_refl
  · exact InStep.slot swappable_false h

/-- The place of the old statement belongs to a reached node. -/
theorem Restated.reached {root : Node} (h : Restated new place a b) (hb : Reached root b) :
    ∃ old, Reached root old ∧ old.span = some place := by
  induction h with
  | sequence h _ _ _ hold hplace => exact ⟨_, .child hb h.placed (List.mem_of_getElem? hold), hplace⟩
  | above h _ hd _ ih => exact ih (.child hb h.placed (List.mem_of_getElem? hd))

theorem BuiltAround.pair (h : BuiltAround i a b) (hc : a.children[j]? = some c) : ∃ d, b.children[j]? = some d :=
  ⟨_, List.getElem?_eq_getElem (h.length ▸ (List.getElem?_eq_some_iff.mp hc).1)⟩

/-- If the child at `i` is in its slot, no child has changed. -/
theorem BuiltAround.agrees (h : BuiltAround i a b) (hc : a.children[i]? = some c) (hd : b.children[i]? = some d)
    (hslot : c.sameSlot d) : a.Agrees b := by
  refine ⟨h.content, childrenChanged_eq_false_iff.mpr ⟨h.length, fun j x y hx hy => ?_⟩⟩
  by_cases hj : j = i
  · subst hj
    cases hc.symm.trans hx
    cases hd.symm.trans hy
    exact hslot
  · exact slot_of_kept (h.beside j x y hj hx hy)

theorem nodup_differing (n base : Node) : (n.differing base).Nodup := by
  have hidx : (n.children.zip base.children).zipIdx.Pairwise fun x y => x.2 ≠ y.2 := by
    refine List.pairwise_map.mp ?_
    rw [List.zipIdx_map_snd]
    exact List.nodup_range'
  refine List.pairwise_filterMap.mpr (hidx.imp ?_)
  rintro ⟨⟨a, b⟩, i⟩ ⟨⟨c, d⟩, j⟩ hij x hx y hy
  obtain ⟨-, hx⟩ := Option.ite_none_left_eq_some.mp hx
  obtain ⟨-, hy⟩ := Option.ite_none_left_eq_some.mp hy
  rwa [← Option.some.inj hx, ← Option.some.inj hy]

/-- If the child at `i` is not in its slot, it is the only one. -/
theorem BuiltAround.differing (h : BuiltAround i a b) (hc : a.children[i]? = some c) (hd : b.children[i]? = some d)
    (hslot : ¬c.sameSlot d) : a.differing b = [i] := by
  refine List.perm_singleton.mp ((List.perm_ext_iff_of_nodup (nodup_differing a b) (List.nodup_singleton i)).mpr ?_)
  intro j
  rw [mem_differing_iff, List.mem_singleton]
  constructor
  · rintro ⟨x, y, hx, hy, hxy⟩
    by_contra hj
    exact hxy (slot_of_kept (h.beside j x y hj hx hy))
  · rintro rfl
    exact ⟨c, d, hc, hd, hslot⟩

/-- A statement without a place is told from the one that it stands for, and nothing else has changed. -/
theorem BuiltAround.replaced? (h : BuiltAround i a b) (hsequence : b.isSequence) (hnew : a.children[i]? = some new)
    (hnone : new.span = none) (hold : b.children[i]? = some old) (hplace : old.span = some place) :
    a.childrenChanged b = true ∧ a.replaced? b = some (i, new, place) := by
  have hslot : ¬new.sameSlot old := by
    rw [sameSlot_iff, hnone, hplace]
    simp
  constructor
  · by_contra hsame
    exact hslot ((childrenChanged_eq_false_iff.mp (by simpa using hsame)).2 i new old hnew hold)
  · have hsequence' : a.isSequence = true := by rwa [isSequence, (sameSlot_iff.mp h.slot).1]
    simp [Node.replaced?, hsequence', h.length, h.differing hnew hold hslot, hnew, hnone, hold, hplace, guard]

/-- Decides whether a node was built around the child at `i`, with twins beside it. -/
def isBuiltAround (i : Nat) (a b : Node) : Bool :=
  a.sameSlot b && b.span.isSome && !a.same b && !a.contentDiffers b && a.children.length == b.children.length &&
    ((a.children.zip b.children).eraseIdx i).all fun x => isInStep (fun _ _ => false) x.1 x.2

theorem builtAround_of_isBuiltAround (h : isBuiltAround i a b) : BuiltAround i a b := by
  simp only [isBuiltAround, Bool.and_eq_true, Bool.not_eq_true', beq_iff_eq, List.all_eq_true, and_assoc] at h
  obtain ⟨hslot, hplaced, hother, hcontent, hlength, hbeside⟩ := h
  refine ⟨hslot, hplaced, hother, hcontent, hlength, fun j c d hj hc hd => .inr (twin_of_isInStep ?_)⟩
  exact hbeside (c, d) (List.mem_eraseIdx_iff_getElem?.mpr ⟨j, hj, List.getElem?_zip_eq_some.mpr ⟨hc, hd⟩⟩)

end Restated

end Node

namespace Region
open Node

/-- Of a list all of whose elements but one give nothing, that one gives everything. -/
theorem flatMap_of_eraseIdx {α β : Type} {f : α → List β} {l : List α} {i : Nat} {a : α} (ha : l[i]? = some a)
    (h : (l.eraseIdx i).flatMap f = []) : l.flatMap f = f a := by
  obtain ⟨hi, rfl⟩ := List.getElem?_eq_some_iff.mp ha
  rw [List.eraseIdx_eq_take_drop_succ, List.flatMap_append, List.append_eq_nil_iff] at h
  conv_lhs => rw [← List.take_append_drop i l, List.drop_eq_getElem_cons hi]
  rw [List.flatMap_append, List.flatMap_cons, h.1, h.2, List.nil_append, List.append_nil]

section Restated
variable {u : Units} {root a b c d new : Node} {q place : Span}

/-- Discovery is silent about what was kept, and about its twins. -/
theorem search_nil_of_kept (hn : Nested root) (hd : Distinct root) (hq : root.span = some q)
    (hroot : u.tree? q.file = some root) (hreached : Reached root d) (h : c = d ∨ Twin c d) : search u c = [] := by
  rcases h with rfl | h
  · refine search_eq_nil_iff.mpr fun base hcp => .inl ?_
    obtain ⟨t, -, ht, -⟩ := Units.counterpart?_inv hcp
    have hfile := hreached.file_eq hn hq ht
    have hcp' := Units.counterpart?_of_reached hn hd hreached ht (by rw [hfile]; exact hroot) c.sameSlot_refl
    cases hcp.symm.trans hcp'
    exact c.same_refl
  · exact search_nil_of_twin hn hd hq hroot hreached h

/-- Of the children of a node that was built around one of them, all others are passed over. -/
theorem search_beside {i : Nat} (hn : Nested root) (hd : Distinct root) (hq : root.span = some q)
    (hroot : u.tree? q.file = some root) (hreached : Reached root b) (h : BuiltAround i a b) :
    (a.children.eraseIdx i).flatMap (search u) = [] := by
  refine List.flatMap_eq_nil_iff.mpr fun c hc => ?_
  obtain ⟨j, hj, hc⟩ := List.mem_eraseIdx_iff_getElem?.mp hc
  obtain ⟨d, hd'⟩ := h.pair hc
  exact search_nil_of_kept hn hd hq hroot (.child hreached h.placed (List.mem_of_getElem? hd'))
    (h.beside j c d hj hc hd')

/-- The one region is the place of the old statement. -/
theorem search_of_restated (hn : Nested root) (hd : Distinct root) (hq : root.span = some q)
    (hroot : u.tree? q.file = some root) (hreached : Reached root b) (h : Restated new place a b) :
    search u a = [of u new place] := by
  have hcp : ∀ {i : Nat} {a b : Node}, BuiltAround i a b → Reached root b →
      ∃ t, b.span = some t ∧ u.counterpart? a = some b := by
    intro i a b h hb
    obtain ⟨t, ht⟩ := Option.isSome_iff_exists.mp h.placed
    have hfile := hb.file_eq hn hq ht
    exact ⟨t, ht, Units.counterpart?_of_reached hn hd hb ht (by rw [hfile]; exact hroot) h.slot⟩
  induction h with
  | @sequence i a b old h hsequence hnew hnone hold hplace =>
    obtain ⟨t, ht, hbase⟩ := hcp h hreached
    obtain ⟨hchanged, hreplaced⟩ := h.replaced? hsequence hnew hnone hold hplace
    rw [search_eq, hbase]
    simp only [h.other, ht, h.content, hchanged, hreplaced, search_beside hn hd hq hroot hreached h, if_true,
      Bool.false_eq_true, if_false]
  | @above i a b c d h hc hd' hbelow ih =>
    obtain ⟨t, ht, hbase⟩ := hcp h hreached
    have hagrees := h.agrees hc hd' hbelow.slot
    have hchildren := flatMap_of_eraseIdx hc (search_beside hn hd hq hroot hreached h)
    rw [search_eq, hbase]
    simp only [h.other, ht, hagrees.1, hagrees.2, Bool.false_eq_true, if_false]
    rw [hchildren]
    exact ih (.child hreached h.placed (List.mem_of_getElem? hd'))

end Restated

end Region

namespace Printer
open Node Region

/-- The text of a node that is printed from scratch, or else its placeholder and why. -/
def scratch (p : Printer) (n : Node) : Text × List Diagnostic :=
  match p.fallback n with
  | .ok t => (t, [])
  | .error e => (placeholder n, [{ tag := n.tag, message := e.message }])

theorem yields_printNew (p : Printer) (n : Node) (ds : List Diagnostic) :
    Yields (p.printNew n) ds (p.scratch n).1 (ds ++ (p.scratch n).2) := by
  rw [printNew, scratch]
  cases p.fallback n with
  | ok t => exact Yields.pure_iff.mpr ⟨rfl, (List.append_nil ds).symm⟩
  | error e => rfl

/-- A node without a place is printed from scratch, and hangs from the line that its region begins on. -/
theorem yields_printRegion_new {p : Printer} {c : CompilationUnit} {new : Node} {place : Span}
    (hunit : p.units.get? place.file = some c) (hnone : new.span = none) (ds : List Diagnostic) :
    Yields (p.printRegion (.of p.units new place)) ds
      ((p.scratch new).1.indentLines (c.source.text.indentationAt place.start)) (ds ++ (p.scratch new).2) := by
  have hcp : p.units.counterpart? new = none := Units.counterpart?_unplaced hnone
  have hsource : p.sourceOf place = .ok c.source := by
    rw [sourceOf, Units.source?, hunit]
    rfl
  have hindent : p.indentationOf place = .ok (c.source.text.indentationAt place.start) := by
    rw [indentationOf, hsource]
    rfl
  have hprint : Yields (p.print (.ofList (new.changedNodes p.units)) new) ds
      (.mk [] (p.scratch new).1 [] true) (ds ++ (p.scratch new).2) := by
    rw [print, printIn]
    simp only [hcp]
    exact Yields.bind_iff.mpr ⟨_, _, p.yields_printNew new ds, Yields.pure_iff.mpr ⟨rfl, rfl⟩⟩
  refine Yields.bind_iff.mpr ⟨_, _, hprint, Yields.bind_iff.mpr ⟨_, _, Yields.lift_iff.mpr ⟨hindent, rfl⟩, ?_⟩⟩
  exact Yields.pure_iff.mpr ⟨rfl, rfl⟩

/-- Where one statement of a sequence is new, its old place is the only region. The only edit puts the new statement
there, printed from scratch, and indents its later lines. -/
theorem statement_narrowed (p : Printer) (c : CompilationUnit) (q place : Span) (edited new : Node)
    (hunit : p.units.get? q.file = some c) (hq : c.root.span = some q) (hnested : Nested c.root)
    (hdistinct : Distinct c.root) (h : Restated new place edited c.root) :
    let indent := c.source.text.indentationAt place.start
    let replacement := (p.scratch new).1.indentLines indent
    find p.units edited = [.of p.units new place] ∧
      replacement.lines = Text.hang indent (p.scratch new).1.lines ∧
      p.regenerate edited = .ok {
        edits := [⟨place.start, place.stop, replacement, "Regenerate " ++ new.tag.name⟩]
        diagnostics := (p.scratch new).2 } := by
  intro indent replacement
  have hroot : p.units.tree? q.file = some c.root := by rw [Units.tree?, hunit, Option.map_some]
  have hfind : find p.units edited = [.of p.units new place] :=
    find_of_search (search_of_restated hnested hdistinct hq hroot .root h)
  have hcp := Units.counterpart?_of_reached hnested hdistinct .root hq hroot h.slot
  obtain ⟨old, hold, hplace⟩ := h.reached .root
  have hfile := hold.file_eq hnested hq hplace
  refine ⟨hfind, Text.lines_indentLines (c.source.text.not_mem_indentationAt _),
    regenerate_eq_ok_iff.mpr ⟨by rw [hcp]; rfl, ?_⟩⟩
  have hprint := yields_printRegion_new (by rw [hfile]; exact hunit) h.not_placed []
  rw [hfind]
  exact Yields.mapM_cons_iff.mpr ⟨_, _, [], Yields.bind_iff.mpr ⟨_, _, hprint, Yields.pure_iff.mpr ⟨rfl, rfl⟩⟩,
    Yields.mapM_nil_iff.mpr ⟨rfl, rfl⟩, rfl⟩

/-- A class with one method, whose block has the statement `a` and one more. Its nodes are numbered from `serial` on,
but for the statements. -/
def classAround (serial : Nat) (last : Node) : Node :=
  .mk (.built serial) (some (.range "A.scala" 0 39)) (.classDef []
    { text := "A", span := some (.range "A.scala" 6 7) } []
    (.mk (.built (serial + 1)) (some (.range "A.scala" 8 39)) (.template [] [] none
      [.mk (.built (serial + 2)) (some (.range "A.scala" 12 37)) (.methodDef []
        { text := "f", span := some (.range "A.scala" 16 17) } [] [] none
        (some (.mk (.built (serial + 3)) (some (.range "A.scala" 20 37)) (.block
          [.mk (.built 0) (some (.range "A.scala" 26 27)) (.ident "a"), last]))))])))

/-- The unit of the class with the statement `b`. -/
def classUnit : CompilationUnit where
  source := { name := "A.scala", text := "class A \x7b\n  def f = \x7b\n    a\n    b\n  \x7d\n\x7d".toList }
  root := classAround 2 (.mk (.built 1) (some (.range "A.scala" 32 33)) (.ident "b"))

/-- A block of two statements without a place. -/
def newBlock : Node :=
  .mk (.built 20) none (.block [.mk (.built 21) none (.ident "x"), .mk (.built 22) none (.ident "y")])

/-- Deep in the class, the statement `b` gives way to a block. Nothing around it is printed again, and the lines of the
block are indented by the four blanks that `b` stood behind. -/
theorem nested_narrowed :
    Nested classUnit.root ∧ Distinct classUnit.root ∧
      Restated newBlock (.range "A.scala" 32 33) (classAround 10 newBlock) classUnit.root ∧
      find (plain classUnit).units (classAround 10 newBlock) =
        [.of (plain classUnit).units newBlock (.range "A.scala" 32 33)] ∧
      (plain classUnit).regenerate (classAround 10 newBlock) = .ok {
        edits := [⟨32, 33, "\x7b\n      x\n      y\n    \x7d".toList, "Regenerate block"⟩]
        diagnostics := [] } := by
  have hplaced : WellPlaced classUnit.root := wellPlaced_of_isWellPlaced (by cbv)
  have hrestated : Restated newBlock (.range "A.scala" 32 33) (classAround 10 newBlock) classUnit.root :=
    .above (i := 1) (builtAround_of_isBuiltAround (by cbv)) rfl rfl <|
    .above (i := 0) (builtAround_of_isBuiltAround (by cbv)) (by cbv) (by cbv) <|
    .above (i := 1) (builtAround_of_isBuiltAround (by cbv)) rfl rfl <|
    .sequence (i := 1) (builtAround_of_isBuiltAround (by cbv)) rfl rfl rfl rfl rfl
  obtain ⟨hfind, -, hedits⟩ := statement_narrowed (plain classUnit) classUnit (.range "A.scala" 0 39)
    (.range "A.scala" 32 33) (classAround 10 newBlock) newBlock rfl rfl hplaced.within.nested hplaced.distinct hrestated
  have hscratch : (plain classUnit).scratch newBlock = ("\x7b\n  x\n  y\n\x7d".toList, []) := by cbv
  rw [hscratch] at hedits
  exact ⟨hplaced.within.nested, hplaced.distinct, hrestated, hfind, hedits.trans (by cbv)⟩

end Printer

end Reprint
