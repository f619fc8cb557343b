import Mathlib
import Reprint.Proofs.ChangedNodes
import Reprint.Proofs.Kept
/-!
Nodes that are printed from their old text. Printing looks whether a node is pristine: it is its base node, or nothing
in it has changed, where children are paired by their order. Discovery pairs every node anew, by its place. Main
statement: over base trees in which every node has a place of its own within its parent, the two agree. A node is
pristine exactly when neither it nor anything below it counts as changed.
-/

namespace Reprint

namespace Node

/-! ### Settled trees -/

/-- Every node has a place, within that of its parent, and no two nodes share their range and their tag. -/
structure Settled (root : Node) : Prop where
  placed : ∀ n ∈ root.preorder, n.span.isSome
  inside : ∀ n ∈ root.preorder, ∀ c ∈ n.children, ∀ s t, n.span = some s → c.span = some t → s.includes t
  distinct : Distinct root

theorem Settled.within {root : Node} (h : Settled root) : Within root := by
  intro n hn
  induction n using children_induction with
  | step n ih =>
    intro m hm s t hs ht
    rcases mem_preorder_iff.mp hm with rfl | ⟨c, hc, hm⟩
    · cases hs.symm.trans ht
      exact Span.includes_refl s
    · have hcmem := mem_preorder_trans hn (mem_preorder_child hc)
      obtain ⟨k, hk⟩ := Option.isSome_iff_exists.mp (h.placed c hcmem)
      exact Span.includes_trans (h.inside n hn c hc s k hs hk) (ih c hc hcmem m hm k t hk ht)

end Node

namespace Units
open Node

/-- All base trees are settled, and the edited tree has nodes in common with them. -/
def Settles (u : Units) (edited : Node) : Prop :=
  ∀ file root, u.tree? file = some root → Settled root ∧ Sharing edited root

section Settles
variable {u : Units} {edited n o : Node}

/-- Whatever stands in the slot of a base node below a counterpart is paired with that base node. -/
theorem Settles.counterpart_below (h : u.Settles edited) (ho : u.counterpart? n = some o) {d : Node}
    (hd : d ∈ o.preorder) {c : Node} (hc : c.sameSlot d) : u.counterpart? c = some d := by
  obtain ⟨q, root, -, hroot, hmem, -⟩ := counterpart?_inv ho
  obtain ⟨homem, hoq⟩ := mem_atRange hmem
  obtain ⟨hsettled, -⟩ := h q.file root hroot
  have hdmem := mem_preorder_trans homem hd
  obtain ⟨s, hs, hsq⟩ := standsAt_iff.mp hoq
  obtain ⟨t, ht⟩ := Option.isSome_iff_exists.mp (hsettled.placed d hdmem)
  have hfile : t.file = q.file :=
    (Span.includes_iff.mp (hsettled.within o homem d hd s t hs ht)).1.symm.trans (Span.sameRange_iff.mp hsq).1
  exact counterpart?_of_sameSlot hsettled.within hsettled.distinct hdmem ht (by rw [hfile, hroot]) hc

theorem Settles.eq_of_same (h : u.Settles edited) (ho : u.counterpart? n = some o) {d : Node} (hd : d ∈ o.preorder)
    {m : Node} (hm : m ∈ edited.preorder) (hsame : m.same d) : m = d := by
  obtain ⟨q, root, -, hroot, hmem, -⟩ := counterpart?_inv ho
  exact (h q.file root hroot).2 m hm d (mem_preorder_trans (mem_atRange hmem).1 hd) hsame

theorem Settles.untouched_below (h : u.Settles edited) (hn : n ∈ edited.preorder) (huntouched : u.isUntouched n = true)
    {m : Node} (hm : m ∈ n.preorder) : u.isUntouched m = true := by
  obtain ⟨o, ho, hsame⟩ := (Option.any_eq_true _ _).mp huntouched
  obtain rfl := h.eq_of_same ho o.mem_preorder_self hn hsame
  exact isUntouched_of_self (h.counterpart_below ho hm m.sameSlot_refl)

theorem Settles.exposed_or_untouched (h : u.Settles edited) {top : Node} (htop : top ∈ edited.preorder)
    (hn : n ∈ top.preorder) : Exposed u top n ∨ u.isUntouched n = true := by
  induction top using children_induction with
  | step top ih =>
    rcases mem_preorder_iff.mp hn with rfl | ⟨c, hc, hnc⟩
    · exact .inl (.here n)
    · by_cases huntouched : u.isUntouched top = true
      · exact .inr (h.untouched_below htop huntouched hn)
      · rcases ih c hc (mem_preorder_trans htop (mem_preorder_child hc)) hnc with hexposed | huntouched
        · exact .inl (.child (Bool.eq_false_iff.mpr huntouched) hc hexposed)
        · exact .inr huntouched

end Settles

end Units

namespace Region
open Node

section Pristine
variable {u : Units} {edited n o : Node} {r : Region}

/-- No node below a counterpart is in the changed set of a region. -/
theorem Origin.not_contains_base (hr : Origin u edited r) (h : u.Settles edited) (ho : u.counterpart? n = some o)
    {d : Node} (hd : d ∈ o.preorder) : r.changed.contains d = false := by
  refine Bool.eq_false_iff.mpr fun hcontains => ?_
  obtain ⟨m, hsame, hexposed, hmodified, -⟩ := hr.contains_iff.mp hcontains
  obtain rfl := h.eq_of_same ho hd (mem_preorder_trans hr.top hexposed.mem_preorder) hsame
  rw [Units.isUntouched_of_self (h.counterpart_below ho hd m.sameSlot_refl)] at hmodified
  cases hmodified

/-- An exposed node that is not in the changed set agrees with its counterpart. -/
theorem Origin.agrees_of_not_contains (hr : Origin u edited r) (ho : u.counterpart? n = some o)
    (hne : n.same o = false) (hexposed : Exposed u r.top n) (hn : r.changed.contains n = false) : n.Agrees o := by
  have hunmodified : ¬Modified u n := fun hmodified =>
    Bool.eq_false_iff.mp hn (hr.contains_iff.mpr ⟨n, n.same_refl, hexposed, hmodified⟩)
  have huntouched := Units.isUntouched_eq_false ho hne
  refine ⟨Bool.eq_false_iff.mpr fun hdiffers => ?_, Bool.eq_false_iff.mpr fun hchanged => ?_⟩
  · exact hunmodified ⟨huntouched, .inr ⟨o, ho, .inl hdiffers⟩⟩
  · exact hunmodified ⟨huntouched, .inr ⟨o, ho, .inr (childrenChanged_iff.mp hchanged)⟩⟩

theorem Origin.unchanged_of_pristine (hr : Origin u edited r) (h : u.Settles edited) (hn : n ∈ edited.preorder)
    (ho : u.counterpart? n = some o) (hpristine : n.isPristine r.changed o = true) :
    ∀ m ∈ n.preorder, r.changed.contains m = false := by
  induction n using children_induction generalizing o with
  | step n ih =>
    intro m hm
    rcases isPristine_iff.mp hpristine with hsame | ⟨hself, -, hslots, hbelow⟩
    · obtain rfl := h.eq_of_same ho o.mem_preorder_self hn hsame
      exact hr.not_contains_base h ho hm
    · rcases mem_preorder_iff.mp hm with rfl | ⟨c, hc, hm⟩
      · exact hself
      · obtain ⟨hlen, hslots⟩ := childrenChanged_eq_false_iff.mp hslots
        obtain ⟨i, hi⟩ := List.getElem?_of_mem hc
        have hd := List.getElem?_eq_getElem (hlen ▸ (List.getElem?_eq_some_iff.mp hi).1)
        have hcp := h.counterpart_below ho (mem_preorder_child (List.mem_of_getElem? hd)) (hslots i _ _ hi hd)
        exact ih c hc (mem_preorder_trans hn (mem_preorder_child hc)) hcp (hbelow i _ _ hi hd) m hm

theorem Origin.pristine_of_unchanged (hr : Origin u edited r) (h : u.Settles edited) (hn : n ∈ r.top.preorder)
    (ho : u.counterpart? n = some o) (hunchanged : ∀ m ∈ n.preorder, r.changed.contains m = false) :
    n.isPristine r.changed o = true := by
  induction n using children_induction generalizing o with
  | step n ih =>
    rw [isPristine_iff]
    by_cases hsame : n.same o = true
    · exact .inl hsame
    · have hne : n.same o = false := Bool.eq_false_iff.mpr hsame
      have hself := hunchanged n n.mem_preorder_self
      have hexposed : Exposed u r.top n := by
        refine (h.exposed_or_untouched hr.top hn).resolve_right fun huntouched => ?_
        rw [Units.isUntouched_eq_false ho hne] at huntouched
        cases huntouched
      obtain ⟨hcontent, hchildren⟩ := hr.agrees_of_not_contains ho hne hexposed hself
      refine .inr ⟨hself, ?_, hchildren, fun i c d hc hd => ?_⟩
      · rw [sameShape, Units.sameSlot_counterpart ho, hcontent]
        rfl
      · have hslot := (childrenChanged_eq_false_iff.mp hchildren).2 i c d hc hd
        have hcp := h.counterpart_below ho (mem_preorder_child (List.mem_of_getElem? hd)) hslot
        have hc := List.mem_of_getElem? hc
        exact ih c hc (mem_preorder_trans hn (mem_preorder_child hc)) hcp fun m hm =>
          hunchanged m (mem_preorder_of_child hc hm)

end Pristine

/-- Printing and discovery agree about what has changed: over settled base trees, a node of a region is pristine exactly
when neither it nor anything below it is in the changed set of the region. -/
theorem pristine_iff_unchanged (u : Units) (edited : Node) (hu : u.Settles edited) (r : Region) (hr : r ∈ find u edited)
    (n o : Node) (hn : n ∈ r.top.preorder) (ho : u.counterpart? n = some o) :
    n.isPristine r.changed o = true ↔ ∀ m ∈ n.preorder, r.changed.contains m = false := by
  have horigin := find_origin hr
  exact ⟨horigin.unchanged_of_pristine hu (mem_preorder_trans horigin.top hn) ho,
    horigin.pristine_of_unchanged hu hn ho⟩

/-- The call `a.x(b)` becomes `a.y(b)`. Its `a` was built again and is pristine all the same; the selection is not. -/
theorem rebuilt_owner_pristine :
    let owner := Node.mk (.built 4) (some (.range "A.scala" 0 1)) (.ident "a")
    let u := Units.single Printer.memberCall
    u.Settles (Printer.renamedCall owner) ∧ ∃ r ∈ find u (Printer.renamedCall owner), ∃ o o',
      u.counterpart? owner = some o ∧ owner.same o = false ∧ owner.isPristine r.changed o = true ∧
      u.counterpart? r.top = some o' ∧ r.top.isPristine r.changed o' = false := by
  intro owner u
  have hsettles : u.Settles (Printer.renamedCall owner) := by
    intro file root hroot
    have hroot : root = Printer.memberCall.root := by
      obtain ⟨c, hc, rfl⟩ := Option.map_eq_some_iff.mp hroot
      rw [List.mem_singleton.mp (List.mem_of_find?_eq_some hc)]
    subst hroot
    have hwell : WellPlaced Printer.memberCall.root := wellPlaced_of_isWellPlaced (by cbv)
    have hplaced : Printer.memberCall.root.preorder.all (·.span.isSome) = true := by cbv
    have hinside : ∀ n ∈ Printer.memberCall.root.preorder, ∀ c ∈ n.children, ∀ s t, n.span = some s → c.span = some t →
        s.includes t := fun n hn c hc => hwell.within n hn c (mem_preorder_child hc)
    refine ⟨⟨List.all_eq_true.mp hplaced, hinside, hwell.distinct⟩, ?_⟩
    intro n hn b hb hsame
    have hid := same_iff.mp hsame
    simp only [preorder_eq, Printer.memberCall, Printer.renamedCall, children, nameTokens, List.flatMap_cons,
      List.flatMap_nil, List.append_nil, List.cons_append, List.nil_append, List.mem_cons,
      List.not_mem_nil, or_false, owner] at hn hb
    rcases hn with rfl | rfl | rfl | rfl | rfl <;> rcases hb with rfl | rfl | rfl | rfl | rfl <;>
      first | rfl | cases hid
  let top := Node.mk (.built 5) (some (.range "A.scala" 0 3))
    (.select owner { text := "y", span := some (.range "A.scala" 2 3) })
  have hfind : find u (Printer.renamedCall owner) = [of u top (.range "A.scala" 0 3)] := by cbv
  have hr : of u top (.range "A.scala" 0 3) ∈ find u (Printer.renamedCall owner) := by
    rw [hfind]
    exact List.mem_singleton_self _
  have hagree := pristine_iff_unchanged u (Printer.renamedCall owner) hsettles _ hr
  have hcp : u.counterpart? owner = Printer.memberCall.root.at? [0, 0] := by cbv
  have hcptop : u.counterpart? top = Printer.memberCall.root.at? [0] := by cbv
  refine ⟨hsettles, _, hr, _, _, hcp, rfl, ?_, hcptop, ?_⟩
  · refine (hagree owner _ (mem_preorder_child (List.mem_cons_self ..)) hcp).mpr fun m hm => ?_
    rcases mem_preorder_iff.mp hm with rfl | ⟨c, hc, -⟩
    · cbv
    · cases hc
  · refine Bool.eq_false_iff.mpr fun hpristine => ?_
    have hcontains : (of u top (.range "A.scala" 0 3)).changed.contains top = true := by cbv
    rw [(hagree top _ top.mem_preorder_self hcptop).mp hpristine top top.mem_preorder_self] at hcontains
    cases hcontains

end Region

end Reprint
