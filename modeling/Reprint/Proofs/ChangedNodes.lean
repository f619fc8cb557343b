import Mathlib
import Reprint.Proofs.Discovery
import Reprint.Proofs.OwnRoot
/-!
The nodes of a region that count as changed. From the top of the region they are collected along the children, but not
below a node that is its own counterpart (`Exposed`). Collected are the nodes without a counterpart and those that
differ from it in content or in the slots of their children (`Modified`). Main statement: every region that is found
holds exactly these nodes, each once and its top among them, and has the range of a base node.
-/

namespace Reprint

namespace Node

/-! ### Slots -/

/-- The tag and the place of a node. -/
def slot (n : Node) : Tag × Option (String × Nat × Nat × Nat) :=
  (n.tag, n.span.map fun s => (s.file, s.start, s.point, s.stop))

theorem sameSlot_iff_slot_eq {a b : Node} : a.sameSlot b ↔ a.slot = b.slot := by
  rw [sameSlot_iff, slot, slot, Prod.mk.injEq]
  refine and_congr_right fun _ => ?_
  cases a.span with
  | none => cases b.span <;> simp
  | some s => cases b.span <;> simp [Span.sameRange_iff]

theorem childrenChanged_iff {n base : Node} :
    n.childrenChanged base = true ↔ n.children.map slot ≠ base.children.map slot := by
  rw [ne_eq, ← Bool.not_eq_false, not_iff_not, childrenChanged_eq_false_iff]
  constructor
  · rintro ⟨hlen, hslots⟩
    refine List.ext_getElem (by rw [List.length_map, List.length_map, hlen]) fun i hi hi' => ?_
    rw [List.getElem_map, List.getElem_map, ← sameSlot_iff_slot_eq]
    rw [List.length_map] at hi hi'
    exact hslots i _ _ (List.getElem?_eq_getElem hi) (List.getElem?_eq_getElem hi')
  · intro h
    refine ⟨by simpa using congrArg List.length h, fun i a b ha hb => ?_⟩
    have hi := congrArg (·[i]?) h
    simpa [ha, hb, ← sameSlot_iff_slot_eq] using hi

/-! ### What is collected -/

/-- A node that counts as changed: it is not its own counterpart, and it has none, or differs from it in content, or
its children stand in other slots. -/
def Modified (u : Units) (n : Node) : Prop :=
  u.isUntouched n = false ∧
    (u.counterpart? n = none ∨ ∃ base, u.counterpart? n = some base ∧
      (n.contentDiffers base = true ∨ n.children.map slot ≠ base.children.map slot))

/-- A node reached along the children, but not below a node that is its own counterpart. -/
inductive Exposed (u : Units) : Node → Node → Prop where
  | here (n : Node) : Exposed u n n
  | child {n c m : Node} : u.isUntouched n = false → c ∈ n.children → Exposed u c m → Exposed u n m

theorem exposed_iff {u : Units} {n m : Node} :
    Exposed u n m ↔ m = n ∨ (u.isUntouched n = false ∧ ∃ c ∈ n.children, Exposed u c m) := by
  constructor
  · rintro (_ | ⟨hn, hc, hm⟩)
    · exact .inl rfl
    · exact .inr ⟨hn, _, hc, hm⟩
  · rintro (rfl | ⟨hn, c, hc, hm⟩)
    · exact .here m
    · exact .child hn hc hm

theorem Exposed.mem_preorder {u : Units} {n m : Node} (h : Exposed u n m) : m ∈ n.preorder := by
  induction h with
  | here n => exact n.mem_preorder_self
  | child _ hc _ ih => exact mem_preorder_of_child hc ih

theorem mem_changedNodes_step {u : Units} {n m : Node} : m ∈ n.changedNodes u ↔
    (m = n ∧ Modified u n) ∨ (u.isUntouched n = false ∧ ∃ c ∈ n.children, m ∈ c.changedNodes u) := by
  rw [changedNodes, flatMap_attach n.children (changedNodes u), Modified, Units.isUntouched]
  cases hcp : u.counterpart? n with
  | none => simp
  | some base =>
    cases hsame : n.same base with
    | true => simp [hsame]
    | false =>
      simp only [hsame, Option.any_some, reduceCtorEq, false_or, Option.some.injEq, true_and, ← childrenChanged_iff,
        ← Bool.or_eq_true, exists_eq_left']
      cases n.contentDiffers base || n.childrenChanged base <;> simp

/-- What is collected at a node: everything exposed below it that counts as changed. -/
theorem mem_changedNodes_iff {u : Units} {n m : Node} : m ∈ n.changedNodes u ↔ Exposed u n m ∧ Modified u m := by
  induction n using children_induction with
  | step n ih =>
    rw [mem_changedNodes_step, exposed_iff]
    constructor
    · rintro (⟨rfl, hm⟩ | ⟨hn, c, hc, hm⟩)
      · exact ⟨.inl rfl, hm⟩
      · obtain ⟨hexposed, hm⟩ := (ih c hc).mp hm
        exact ⟨.inr ⟨hn, c, hc, hexposed⟩, hm⟩
    · rintro ⟨rfl | ⟨hn, c, hc, hexposed⟩, hm⟩
      · exact .inl ⟨rfl, hm⟩
      · exact .inr ⟨hn, c, hc, (ih c hc).mpr ⟨hexposed, hm⟩⟩

theorem head?_changedNodes {u : Units} {n : Node} (h : Modified u n) : (n.changedNodes u).head? = some n := by
  obtain ⟨hn, hnone | ⟨base, hcp, hdiffers⟩⟩ := h
  · rw [changedNodes, hnone]
    rfl
  · have hsame : n.same base = false := by rwa [Units.isUntouched, hcp, Option.any_some] at hn
    rw [← childrenChanged_iff, ← Bool.or_eq_true] at hdiffers
    rw [changedNodes, hcp]
    simp only [hsame, hdiffers, if_true, Bool.false_eq_true, if_false, List.head?_cons]

end Node

theorem Units.mem_of_counterpart? {u : Units} {n base : Node} (h : u.counterpart? n = some base) :
    ∃ c ∈ u.units, base ∈ c.root.preorder := by
  obtain ⟨q, root, -, hroot, hbase, -⟩ := counterpart?_inv h
  obtain ⟨c, hc, rfl⟩ := Option.map_eq_some_iff.mp hroot
  exact ⟨c, List.mem_of_find?_eq_some hc, (Node.mem_atRange hbase).1⟩

namespace Region
open Node

/-! ### Where regions come from -/

/-- A region found in an edited tree: its top is a node of the tree that counts as changed, with it are collected the
nodes below, and its range is that of a base node in the counterpart of some edited node. -/
structure Origin (u : Units) (n : Node) (r : Region) : Prop where
  top : r.top ∈ n.preorder
  modified : Modified u r.top
  changed : r.changed = .ofList (r.top.changedNodes u)
  range : ∃ m ∈ n.preorder, ∃ base, u.counterpart? m = some base ∧ ∃ b ∈ base.preorder, b.span = some r.range

theorem Origin.child {u : Units} {n c : Node} {r : Region} (h : Origin u c r) (hc : c ∈ n.children) : Origin u n r where
  top := mem_preorder_of_child hc h.top
  modified := h.modified
  changed := h.changed
  range := by
    obtain ⟨m, hm, hrange⟩ := h.range
    exact ⟨m, mem_preorder_of_child hc hm, hrange⟩

theorem search_origin {u : Units} {n : Node} {r : Region} (h : r ∈ search u n) : Origin u n r := by
  induction n using children_induction with
  | step n ih =>
    obtain ⟨pre, post, hsplit⟩ := List.append_of_mem h
    obtain ⟨base, range, hcp, hne, hrange, hcases⟩ := search_split hsplit
    have huntouched := Units.isUntouched_eq_false hcp hne
    have own : n.contentDiffers base = true ∨ n.childrenChanged base = true → Origin u n (of u n range) := by
      intro hdiffers
      rw [childrenChanged_iff] at hdiffers
      exact ⟨n.mem_preorder_self, ⟨huntouched, .inr ⟨base, hcp, hdiffers⟩⟩, rfl,
        n, n.mem_preorder_self, base, hcp, base, base.mem_preorder_self, hrange⟩
    rcases hcases with ⟨hdiff, rfl | ⟨-, c, hc, hr⟩⟩ | ⟨-, hchanged, rfl⟩ | ⟨-, i, new, place, hreplaced, rfl⟩ |
      ⟨-, j, c, d, hc, -, -, pre', post', hr, -⟩
    · exact own (.inl hdiff)
    · exact (ih c hc hr).child hc
    · exact own (.inr hchanged)
    · -- A replaced statement has no place, hence no counterpart.
      obtain ⟨-, hnew, hnone, ⟨old, hold, hplace⟩, -⟩ := replaced?_inv hreplaced
      have hmodified : Modified u new := ⟨Units.isUntouched_unplaced hnone, .inl (Units.counterpart?_unplaced hnone)⟩
      exact ⟨mem_preorder_child (List.mem_of_getElem? hnew), hmodified, rfl,
        n, n.mem_preorder_self, base, hcp, old, mem_preorder_child (List.mem_of_getElem? hold), hplace⟩
    · have hc := List.mem_of_getElem? hc
      exact (ih c hc (by rw [hr]; simp)).child hc

theorem find_origin {u : Units} {n : Node} {r : Region} (h : r ∈ find u n) : Origin u n r := by
  obtain ⟨-, pre, post, hsplit, -⟩ := mem_widest_split h
  exact search_origin (by rw [hsplit]; simp)

section Changed
variable {u : Units} {edited : Node} {r : Region}

theorem Origin.collects (h : Origin u edited r) : r.changed.Collects (r.top.changedNodes u) :=
  h.changed ▸ NodeSet.collects_ofList _

/-- A region contains, up to identity, the exposed nodes below its top that count as changed. -/
theorem Origin.contains_iff (h : Origin u edited r) {n : Node} :
    r.changed.contains n = true ↔ ∃ m, m.same n ∧ Exposed u r.top m ∧ Modified u m := by
  rw [NodeSet.contains_iff]
  constructor
  · rintro ⟨m, hm, hsame⟩
    exact ⟨m, hsame, mem_changedNodes_iff.mp (h.collects.sound m hm)⟩
  · rintro ⟨m, hsame, hm⟩
    obtain ⟨k, hk, hkm⟩ := NodeSet.contains_iff.mp (h.collects.complete m (mem_changedNodes_iff.mpr hm))
    exact ⟨k, hk, same_iff.mpr ((same_iff.mp hkm).trans (same_iff.mp hsame))⟩

theorem Origin.mem_changed_iff (h : Origin u edited r) (hindividual : Individual edited) {n : Node} :
    n ∈ r.changed.nodes ↔ Exposed u r.top n ∧ Modified u n := by
  have hmem : ∀ k ∈ r.top.changedNodes u, k ∈ edited.preorder := fun k hk =>
    mem_preorder_trans h.top (mem_changedNodes_iff.mp hk).1.mem_preorder
  rw [← mem_changedNodes_iff]
  refine ⟨h.collects.sound n, fun hn => ?_⟩
  obtain ⟨k, hk, hsame⟩ := NodeSet.contains_iff.mp (h.collects.complete n hn)
  rwa [← hindividual k (hmem k (h.collects.sound k hk)) n (hmem n hn) hsame]

end Changed

/-- What a region of an edited tree holds. No two of its changed nodes are one, its top is among them, and up to
identity they are the nodes exposed below the top that count as changed; where identities tell the nodes apart, they
are exactly these. Its range is the place of a base node. -/
theorem changed_exact (u : Units) (edited : Node) (r : Region) (hr : r ∈ find u edited) :
    r.changed.nodes.Pairwise (fun a b => a.same b = false) ∧ r.top ∈ r.changed.nodes ∧
      (∀ n, r.changed.contains n = true ↔ ∃ m, m.same n ∧ Exposed u r.top m ∧ Modified u m) ∧
      (Individual edited → ∀ n, n ∈ r.changed.nodes ↔ Exposed u r.top n ∧ Modified u n) ∧
      ∃ c ∈ u.units, ∃ b ∈ c.root.preorder, b.span = some r.range := by
  have horigin := find_origin hr
  obtain ⟨m, -, base, hcp, b, hb, hrange⟩ := horigin.range
  obtain ⟨c, hc, hbase⟩ := Units.mem_of_counterpart? hcp
  refine ⟨horigin.collects.apart, ?_, fun n => horigin.contains_iff,
    fun hindividual n => horigin.mem_changed_iff hindividual, c, hc, b, mem_preorder_trans hbase hb, hrange⟩
  exact List.mem_of_head? (horigin.collects.first.trans (head?_changedNodes horigin.modified))

/-- Behind the one statement of a block the same new name is put twice. It counts as changed once, beside the block. -/
theorem changed_doubledName :
    let name := Node.mk (.built 2) none (.ident "x")
    let edited := Node.mk (.built 3) (some (.range "A.scala" 0 1))
      (.block (Printer.wrappedName.root.children ++ [name, name]))
    let u := Units.single Printer.wrappedName
    Individual edited ∧ ∃ r ∈ find u edited, r.changed.nodes.map identity = [.built 3, .built 2] ∧
      r.changed.nodes.Pairwise (fun a b => a.same b = false) ∧ r.top ∈ r.changed.nodes ∧
      (∀ n, n ∈ r.changed.nodes ↔ Exposed u r.top n ∧ Modified u n) ∧
      ∃ c ∈ u.units, ∃ b ∈ c.root.preorder, b.span = some r.range := by
  intro name edited u
  have hindividual : Individual edited := by
    intro a ha b hb hsame
    have hid := same_iff.mp hsame
    simp only [preorder_eq, edited, name, Printer.wrappedName, children, List.flatMap_cons, List.flatMap_nil,
      List.append_nil, List.cons_append, List.nil_append, List.mem_cons, List.not_mem_nil, or_false] at ha hb
    rcases ha with rfl | rfl | rfl | rfl <;> rcases hb with rfl | rfl | rfl | rfl <;> first | rfl | cases hid
  have hfind : find u edited = [of u edited (.range "A.scala" 0 1)] := by cbv
  have hr : of u edited (.range "A.scala" 0 1) ∈ find u edited := by rw [hfind]; exact List.mem_singleton_self _
  obtain ⟨hapart, htop, -, hmem, hrange⟩ := changed_exact u edited _ hr
  exact ⟨hindividual, _, hr, by cbv, hapart, htop, hmem hindividual, hrange⟩

end Region

end Reprint
