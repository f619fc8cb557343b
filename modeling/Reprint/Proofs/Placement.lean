import Reprint.Proofs.Descent
/-!
Where the nodes of a tree stand. A tree is well placed when the range of a node holds the ranges of all nodes
below it, when nodes in different branches do not overlap, and when a range and a tag belong to one node. A node
without a place counts for nothing there: what is below it lies within the next placed node above. The search for a
counterpart goes only below nodes that include the place in question. In a tree whose nodes lie within their
ancestors nothing is lost by that, and in a well placed tree a slot has one counterpart.
-/

namespace Reprint

namespace Span
variable {a b c : Span}

theorem sameRange_iff :
    a.sameRange b ↔ a.file = b.file ∧ a.start = b.start ∧ a.point = b.point ∧ a.stop = b.stop := by
  simp only [sameRange, Bool.and_eq_true, beq_iff_eq, and_assoc]

theorem includes_iff : a.includes b ↔ a.file = b.file ∧ a.start ≤ b.start ∧ b.stop ≤ a.stop := by
  simp only [includes, Bool.and_eq_true, beq_iff_eq, decide_eq_true_eq, and_assoc]

theorem properlyIncludes_iff :
    a.properlyIncludes b ↔ a.includes b ∧ ¬(a.start = b.start ∧ a.stop = b.stop) := by
  simp only [properlyIncludes, Bool.and_eq_true, Bool.not_eq_true', Bool.and_eq_false_iff, beq_eq_false_iff_ne,
    Decidable.not_and_iff_not_or_not, ne_eq]

theorem overlaps_iff : a.overlaps b ↔ a.file = b.file ∧ a.start < b.stop ∧ b.start < a.stop := by
  simp only [overlaps, Bool.and_eq_true, beq_iff_eq, decide_eq_true_eq, and_assoc]

@[simp] theorem sameRange_refl (a : Span) : a.sameRange a := sameRange_iff.mpr ⟨rfl, rfl, rfl, rfl⟩

theorem sameRange_symm (h : a.sameRange b) : b.sameRange a := by
  obtain ⟨h₁, h₂, h₃, h₄⟩ := sameRange_iff.mp h
  exact sameRange_iff.mpr ⟨h₁.symm, h₂.symm, h₃.symm, h₄.symm⟩

theorem sameRange_trans (hab : a.sameRange b) (hbc : b.sameRange c) : a.sameRange c := by
  obtain ⟨h₁, h₂, h₃, h₄⟩ := sameRange_iff.mp hab
  obtain ⟨k₁, k₂, k₃, k₄⟩ := sameRange_iff.mp hbc
  exact sameRange_iff.mpr ⟨h₁.trans k₁, h₂.trans k₂, h₃.trans k₃, h₄.trans k₄⟩

@[simp] theorem includes_refl (a : Span) : a.includes a := includes_iff.mpr ⟨rfl, Nat.le_refl _, Nat.le_refl _⟩

theorem includes_trans (hab : a.includes b) (hbc : b.includes c) : a.includes c := by
  obtain ⟨h₁, h₂, h₃⟩ := includes_iff.mp hab
  obtain ⟨k₁, k₂, k₃⟩ := includes_iff.mp hbc
  exact includes_iff.mpr ⟨h₁.trans k₁, Nat.le_trans h₂ k₂, Nat.le_trans k₃ h₃⟩

theorem includes_of_sameRange (h : a.sameRange b) : a.includes b := by
  obtain ⟨h₁, h₂, -, h₄⟩ := sameRange_iff.mp h
  exact includes_iff.mpr ⟨h₁, Nat.le_of_eq h₂, Nat.le_of_eq h₄.symm⟩

theorem overlaps_symm (h : a.overlaps b) : b.overlaps a := by
  obtain ⟨h₁, h₂, h₃⟩ := overlaps_iff.mp h
  exact overlaps_iff.mpr ⟨h₁.symm, h₃, h₂⟩

end Span

/-- Whether `p` holds between every element and each later one. -/
def allPairs {α : Type} (p : α → α → Bool) : List α → Bool
  | [] => true
  | a :: l => l.all (p a) && allPairs p l

theorem allPairs_iff {α : Type} {p : α → α → Bool} {l : List α} : allPairs p l ↔
    ∀ (i j : Nat) (a b : α), i < j → l[i]? = some a → l[j]? = some b → p a b := by
  induction l with
  | nil => simp [allPairs]
  | cons x l ih =>
    simp only [allPairs, Bool.and_eq_true, List.all_eq_true, ih]
    constructor
    · rintro ⟨hx, hl⟩ (_ | i) (_ | j) a b hij ha hb
      · omega
      · cases ha
        exact hx b (List.mem_of_getElem? hb)
      · omega
      · exact hl i j a b (by omega) ha hb
    · intro h
      refine ⟨fun b hb => ?_, fun i j a b hij ha hb => h (i + 1) (j + 1) a b (by omega) ha hb⟩
      obtain ⟨j, hj⟩ := List.getElem?_of_mem hb
      exact h 0 (j + 1) x b (by omega) rfl hj

namespace Node

/-! ### Slots -/

theorem sameSlot_iff {a b : Node} : a.sameSlot b ↔ a.tag = b.tag ∧
    ((∃ s t, a.span = some s ∧ b.span = some t ∧ s.sameRange t) ∨ (a.span = none ∧ b.span = none)) := by
  unfold sameSlot
  cases a.span <;> cases b.span <;> simp

theorem sameSlot_refl (a : Node) : a.sameSlot a := by
  cases h : a.span <;> simp [sameSlot, h]

theorem same_iff {a b : Node} : a.same b ↔ a.identity = b.identity := by
  simp only [same, beq_iff_eq]

@[simp] theorem same_refl (a : Node) : a.same a := same_iff.mpr rfl

/-! ### Well placed trees -/

/-- Nodes lie within the nodes above them. -/
def Within (root : Node) : Prop :=
  ∀ n ∈ root.preorder, ∀ m ∈ n.preorder, ∀ s t, n.span = some s → m.span = some t → s.includes t

/-- Nodes below different children of one node do not overlap. -/
def Apart (root : Node) : Prop :=
  ∀ n ∈ root.preorder, ∀ (i j : Nat) (a b : Node), i ≠ j → n.children[i]? = some a → n.children[j]? = some b →
    ∀ x ∈ a.preorder, ∀ y ∈ b.preorder, ∀ s t, x.span = some s → y.span = some t → ¬s.overlaps t

/-- No two nodes have both their range and their tag in common. -/
def Distinct (root : Node) : Prop :=
  ∀ a ∈ root.preorder, ∀ b ∈ root.preorder, ∀ s t, a.span = some s → b.span = some t → s.sameRange t →
    a.tag = b.tag → a = b

/-- No two places in the tree hold nodes with both their range and their tag in common. -/
def Scattered (root : Node) : Prop :=
  root.preorder.Pairwise fun a b => ∀ s t, a.span = some s → b.span = some t → s.sameRange t → a.tag ≠ b.tag

/-- Two members of a list of which any two are in relation are one if they are not in relation. -/
theorem eq_of_pairwise {α : Type} {R : α → α → Prop} {l : List α} {a b : α} (h : l.Pairwise R) (ha : a ∈ l) (hb : b ∈ l)
    (hab : ¬R a b) (hba : ¬R b a) : a = b := by
  obtain ⟨i, hi, rfl⟩ := List.getElem_of_mem ha
  obtain ⟨j, hj, rfl⟩ := List.getElem_of_mem hb
  rcases Nat.lt_trichotomy i j with hlt | rfl | hlt
  · exact absurd (List.pairwise_iff_getElem.mp h i j hi hj hlt) hab
  · rfl
  · exact absurd (List.pairwise_iff_getElem.mp h j i hj hi hlt) hba

theorem Scattered.distinct {root : Node} (h : Scattered root) : Distinct root :=
  fun _ ha _ hb s t hs ht hst htag => eq_of_pairwise h ha hb (fun hab => hab s t hs ht hst htag)
    fun hba => hba t s ht hs (Span.sameRange_symm hst) htag.symm

/-- A tree that has nodes in common with another one: whatever has the identity of a node is that node. -/
def Sharing (edited base : Node) : Prop := ∀ n ∈ edited.preorder, ∀ b ∈ base.preorder, n.same b → n = b

/-- Each node in a place of its own. -/
structure WellPlaced (root : Node) : Prop where
  within : Within root
  apart : Apart root
  distinct : Distinct root

theorem Within.sub {root n : Node} (h : Within root) (hn : n ∈ root.preorder) : Within n := fun a ha =>
  h a (mem_preorder_trans hn ha)

/-- The nodes of a tree above `n`, and `n` itself, include a range. -/
def Encloses (root n : Node) (q : Span) : Prop :=
  ∀ m ∈ root.preorder, n ∈ m.preorder → ∀ s, m.span = some s → s.includes q

theorem Within.encloses {root n : Node} {q : Span} (h : Within root) (hq : n.span = some q) : Encloses root n q :=
  fun m hm hn s hs => h m hm n hn s q hs hq

theorem Within.encloses_child {root n c : Node} {q : Span} (h : Within root) (hc : c ∈ n.children)
    (hq : c.span = some q) : Encloses root n q :=
  fun m hm hn s hs => h m hm c (mem_preorder_trans hn (mem_preorder_child hc)) s q hs hq

theorem Encloses.mono {root n : Node} {q t : Span} (h : Encloses root n q) (ht : q.includes t) : Encloses root n t :=
  fun m hm hn s hs => Span.includes_trans (h m hm hn s hs) ht

theorem Encloses.sub {root n d : Node} {q : Span} (h : Encloses root n q) (hd : d ∈ root.preorder) : Encloses d n q :=
  fun m hm => h m (mem_preorder_trans hd hm)

/-- Whether the places of two nodes, if they have places, satisfy `p`. -/
def placesAll (p : Span → Span → Bool) (a b : Node) : Bool := a.span.all fun s => b.span.all fun t => p s t

theorem placesAll_iff {p : Span → Span → Bool} {a b : Node} :
    a.placesAll p b ↔ ∀ s t, a.span = some s → b.span = some t → p s t := by
  cases ha : a.span <;> cases hb : b.span <;> simp [placesAll, ha, hb]

/-- Decides whether each node is in a place of its own. -/
def isWellPlaced (root : Node) : Bool :=
  root.preorder.all (fun n => n.preorder.all (n.placesAll fun s t => s.includes t) &&
    allPairs (fun a b => a.preorder.all fun x => b.preorder.all (x.placesAll fun s t => !s.overlaps t)) n.children) &&
  allPairs (fun a b => a.tag != b.tag || a.placesAll (fun s t => !s.sameRange t) b) root.preorder

theorem scattered_of_isWellPlaced {root : Node} (h : root.isWellPlaced) : Scattered root := by
  simp only [isWellPlaced, Bool.and_eq_true, allPairs_iff, placesAll_iff, Bool.or_eq_true, bne_iff_ne,
    Bool.not_eq_true'] at h
  refine List.pairwise_iff_getElem.mpr fun i j hi hj hlt s t hs ht hst htag => ?_
  have := (h.2 i j _ _ hlt (List.getElem?_eq_getElem hi) (List.getElem?_eq_getElem hj)).resolve_left
    (fun h => h htag) s t hs ht
  rw [hst] at this
  cases this

theorem wellPlaced_of_isWellPlaced {root : Node} (h : root.isWellPlaced) : WellPlaced root := by
  have hscattered := scattered_of_isWellPlaced h
  simp only [isWellPlaced, Bool.and_eq_true, List.all_eq_true, allPairs_iff, placesAll_iff, Bool.not_eq_true'] at h
  obtain ⟨hall, -⟩ := h
  refine ⟨fun n hn => (hall n hn).1, ?_, hscattered.distinct⟩
  intro n hn i j a b hij ha hb x hx y hy s t hs ht hst
  rcases Nat.lt_or_gt_of_ne hij with hlt | hlt
  · have := (hall n hn).2 i j a b hlt ha hb x hx y hy s t hs ht
    rw [hst] at this
    cases this
  · have := (hall n hn).2 j i b a hlt hb ha y hy x hx t s ht hs
    rw [Span.overlaps_symm hst] at this
    cases this

/-! ### The search at a range -/

/-- Whether a node stands at a range. -/
def standsAt (q : Span) (n : Node) : Bool := n.span.any (·.sameRange q)

theorem standsAt_iff {q : Span} {n : Node} : n.standsAt q ↔ ∃ s, n.span = some s ∧ s.sameRange q := by
  rw [standsAt, Option.any_eq_true]

theorem atRange_eq (q : Span) (n : Node) : n.atRange q =
    (if n.standsAt q then [n] else []) ++
      (if n.span.all (·.includes q) then n.children.flatMap (atRange q) else []) := by
  rw [atRange, flatMap_attach n.children (atRange q), standsAt]
  cases n.span <;> rfl

theorem mem_atRange {q : Span} {n m : Node} (h : m ∈ n.atRange q) : m ∈ n.preorder ∧ m.standsAt q := by
  induction n using children_induction with
  | step n ih =>
    rw [atRange_eq, List.mem_append] at h
    rcases h with h | h
    · split at h
      · rw [List.mem_singleton.mp h]
        exact ⟨n.mem_preorder_self, ‹_›⟩
      · cases h
    · split at h
      · obtain ⟨c, hc, hm⟩ := List.mem_flatMap.mp h
        exact ⟨mem_preorder_of_child hc (ih c hc hm).1, (ih c hc hm).2⟩
      · cases h

theorem mem_atRange_self {q : Span} {n : Node} (h : n.standsAt q) : n ∈ n.atRange q := by
  rw [atRange_eq, if_pos h]
  exact List.mem_append_left _ (List.mem_singleton_self n)

/-- The search goes on below a node whose ancestors include the range. -/
theorem Encloses.mem_atRange {root n m : Node} {q : Span} (h : Encloses root n q) (hn : n ∈ root.preorder)
    (hm : m ∈ n.atRange q) : m ∈ root.atRange q := by
  induction root using children_induction with
  | step r ih =>
    rcases mem_preorder_iff.mp hn with rfl | ⟨d, hd, hnd⟩
    · exact hm
    · have hbelow := ih d hd (h.sub (mem_preorder_child hd)) hnd
      have hall : r.span.all (·.includes q) = true :=
        (Option.all_eq_true _ _).mpr (h r r.mem_preorder_self hn)
      rw [atRange_eq, if_pos hall]
      exact List.mem_append_right _ (List.mem_flatMap.mpr ⟨d, hd, hbelow⟩)

/-- Where nodes lie within their ancestors, the search leaves out no node at the range. -/
theorem atRange_eq_filter {root : Node} (h : Within root) (q : Span) :
    root.atRange q = root.preorder.filter (·.standsAt q) := by
  induction root using children_induction with
  | step n ih =>
    have below : n.children.flatMap (atRange q) = (n.children.flatMap preorder).filter (·.standsAt q) := by
      rw [List.filter_flatMap, List.flatMap_def, List.flatMap_def]
      exact congrArg List.flatten (List.map_congr_left fun c hc => ih c hc (h.sub (mem_preorder_child hc)))
    rw [atRange_eq, preorder_eq, List.filter_cons, below]
    have hrest : (if n.span.all (·.includes q) then (n.children.flatMap preorder).filter (·.standsAt q) else []) =
        (n.children.flatMap preorder).filter (·.standsAt q) := by
      split
      · rfl
      · rename_i hout
        symm
        rw [List.filter_eq_nil_iff]
        -- A node below at the range would lie within `n`, and so would the range.
        intro m hm hq
        obtain ⟨t, ht, htq⟩ := standsAt_iff.mp hq
        obtain ⟨c, hc, hm⟩ := List.mem_flatMap.mp hm
        apply hout
        rw [Option.all_eq_true]
        intro s hs
        exact Span.includes_trans (h n n.mem_preorder_self m (mem_preorder_of_child hc hm) s t hs ht)
          (Span.includes_of_sameRange htq)
    rw [hrest]
    split <;> rfl

end Node

/-! ### Counterparts -/

namespace Units
open Node

theorem counterpart?_eq {u : Units} {n : Node} {q : Span} {root : Node} (hq : n.span = some q)
    (hroot : u.tree? q.file = some root) :
    u.counterpart? n = (root.atRange q).reverse.find? (·.tag == n.tag) := by
  rw [counterpart?, hq]
  show ((u.tree? q.file).bind fun root => (root.atRange q).reverse.find? (·.tag == n.tag)) = _
  rw [hroot]
  rfl

theorem counterpart?_inv {u : Units} {n b : Node} (h : u.counterpart? n = some b) :
    ∃ q root, n.span = some q ∧ u.tree? q.file = some root ∧ b ∈ root.atRange q ∧ b.tag = n.tag := by
  obtain ⟨q, hq, h⟩ := Option.bind_eq_some_iff.mp h
  obtain ⟨root, hroot, h⟩ := Option.bind_eq_some_iff.mp h
  exact ⟨q, root, hq, hroot, List.mem_reverse.mp (List.mem_of_find?_eq_some h),
    beq_iff_eq.mp (List.find?_some (p := fun m : Node => m.tag == n.tag) h)⟩

theorem counterpart?_span {u : Units} {n b : Node} (h : u.counterpart? n = some b) : ∃ s, b.span = some s := by
  obtain ⟨q, root, -, -, hb, -⟩ := counterpart?_inv h
  obtain ⟨s, hs, -⟩ := standsAt_iff.mp (mem_atRange hb).2
  exact ⟨s, hs⟩

theorem counterpart?_unplaced {u : Units} {n : Node} (h : n.span = none) : u.counterpart? n = none := by
  rw [counterpart?, h]
  rfl

theorem sameSlot_counterpart {u : Units} {n b : Node} (h : u.counterpart? n = some b) : n.sameSlot b := by
  obtain ⟨q, root, hq, -, hmem, htag⟩ := counterpart?_inv h
  obtain ⟨s, hs, hsq⟩ := standsAt_iff.mp (mem_atRange hmem).2
  exact sameSlot_iff.mpr ⟨htag.symm, .inl ⟨q, s, hq, hs, Span.sameRange_symm hsq⟩⟩

theorem find?_reverse_eq_some_iff {α : Type} {p : α → Bool} {l : List α} {a : α} :
    l.reverse.find? p = some a ↔ p a ∧ ∃ pre post, l = pre ++ a :: post ∧ ∀ x ∈ post, ¬p x := by
  rw [List.find?_eq_some_iff_append]
  refine and_congr_right fun _ => ⟨?_, ?_⟩
  · rintro ⟨as, bs, h, has⟩
    refine ⟨bs.reverse, as.reverse, ?_, fun x hx => ?_⟩
    · rw [← List.reverse_reverse l, h]
      simp
    · simpa using has x (List.mem_reverse.mp hx)
  · rintro ⟨pre, post, rfl, hpost⟩
    refine ⟨post.reverse, pre.reverse, by simp, fun x hx => ?_⟩
    simpa using hpost x (List.mem_reverse.mp hx)

/-- Where nodes lie within their ancestors, the counterpart of a node is the last base node with its range and tag. -/
theorem counterpart?_eq_some_iff {u : Units} {root n o : Node} {q : Span} (hw : Within root) (hq : n.span = some q)
    (hroot : u.tree? q.file = some root) : u.counterpart? n = some o ↔ (o.standsAt q ∧ o.tag = n.tag) ∧
      ∃ pre post, root.preorder = pre ++ o :: post ∧ ∀ x ∈ post, x.standsAt q → x.tag ≠ n.tag := by
  rw [counterpart?_eq hq hroot, atRange_eq_filter hw, ← List.filter_reverse, List.find?_filter,
    find?_reverse_eq_some_iff]
  simp only [decide_eq_true_eq, beq_iff_eq, not_and, ne_eq]

/-- A node is paired with the base node in its slot if the search finds that one. -/
theorem counterpart?_of_mem_atRange {u : Units} {root c d : Node} {t : Span} (hd : Distinct root)
    (ht : d.span = some t) (hroot : u.tree? t.file = some root) (h : c.sameSlot d)
    (hmem : ∀ s, s.sameRange t → d ∈ root.atRange s) : u.counterpart? c = some d := by
  obtain ⟨htag, ⟨s, t', hs, ht', hst⟩ | ⟨-, hnone⟩⟩ := sameSlot_iff.mp h
  · rw [ht] at ht'
    cases ht'
    have hfile : s.file = t.file := (Span.sameRange_iff.mp hst).1
    rw [counterpart?_eq hs (by rw [hfile]; exact hroot)]
    have hin : d ∈ (root.atRange s).reverse := List.mem_reverse.mpr (hmem s hst)
    cases hf : (root.atRange s).reverse.find? (·.tag == c.tag) with
    | none => exact absurd (beq_iff_eq.mpr htag.symm) (List.find?_eq_none.mp hf d hin)
    | some x =>
      obtain ⟨hx, hstands⟩ := mem_atRange (List.mem_reverse.mp (List.mem_of_find?_eq_some hf))
      obtain ⟨r, hr, hrs⟩ := standsAt_iff.mp hstands
      have hxt : x.tag = c.tag := beq_iff_eq.mp (List.find?_some (p := fun m : Node => m.tag == c.tag) hf)
      rw [hd x hx d (mem_atRange (hmem s hst)).1 r t hr ht (Span.sameRange_trans hrs hst) (hxt.trans htag)]
  · rw [ht] at hnone
    cases hnone

/-- A node is paired with the base node in its slot if the ancestors of that one include it. -/
theorem counterpart?_of_encloses {u : Units} {root c d : Node} {t : Span} (he : Encloses root d t) (hd : Distinct root)
    (hmem : d ∈ root.preorder) (ht : d.span = some t) (hroot : u.tree? t.file = some root) (h : c.sameSlot d) :
    u.counterpart? c = some d :=
  counterpart?_of_mem_atRange hd ht hroot h fun _ hst =>
    (he.mono (Span.includes_of_sameRange (Span.sameRange_symm hst))).mem_atRange hmem
      (mem_atRange_self (standsAt_iff.mpr ⟨t, ht, Span.sameRange_symm hst⟩))

/-- In a well placed tree the counterpart of a node is the one base node in its slot. -/
theorem counterpart?_of_sameSlot {u : Units} {root c d : Node} {t : Span} (hw : Within root) (hd : Distinct root)
    (hmem : d ∈ root.preorder) (ht : d.span = some t) (hroot : u.tree? t.file = some root) (h : c.sameSlot d) :
    u.counterpart? c = some d :=
  counterpart?_of_encloses (hw.encloses ht) hd hmem ht hroot h

/-- In a well placed tree a base node is its own counterpart. -/
theorem counterpart?_self {u : Units} {root d : Node} {t : Span} (hw : Within root) (hd : Distinct root)
    (hmem : d ∈ root.preorder) (ht : d.span = some t) (hroot : u.tree? t.file = some root) :
    u.counterpart? d = some d :=
  counterpart?_of_sameSlot hw hd hmem ht hroot d.sameSlot_refl

/-! ### Untouched nodes -/

theorem isUntouched_of_self {u : Units} {n : Node} (h : u.counterpart? n = some n) : u.isUntouched n = true := by
  rw [isUntouched, h, Option.any_some, same_refl]

theorem isUntouched_eq_false {u : Units} {n base : Node} (h : u.counterpart? n = some base)
    (hne : n.same base = false) : u.isUntouched n = false := by
  rw [isUntouched, h, Option.any_some, hne]

theorem isUntouched_unplaced {u : Units} {n : Node} (h : n.span = none) : u.isUntouched n = false := by
  rw [isUntouched, counterpart?_unplaced h, Option.any_none]

end Units

end Reprint
