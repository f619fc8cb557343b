import Mathlib
import Reprint.Proofs.Parents
import Reprint.Proofs.Partition
import Reprint.Proofs.Rebuilt
/-!
How far layout reaches. What leads and trails a node is cut out of the gaps beside it, and these end at the siblings and
at the bounds of the parent. Where there is no parent to measure from, the gaps end with the text. Main statement: the
layout of a node stays within its nearest ancestor to measure from exactly if this one is the parent, or there is nothing
beyond it.
-/

namespace Reprint

namespace Node

/-- The nearest node above the one at a path from which layout may be measured. -/
def nearestAnchor? (n : Node) : List Nat → Option Node
  | [] => none
  | i :: path => (n.children[i]?.bind (·.nearestAnchor? path)).or (if n.layoutSpan.isSome then some n else none)

theorem nearestAnchor?_snoc {root parent : Node} {path : List Nat} {i : Nat} (h : root.at? path = some parent)
    (hi : (parent.children[i]?).isSome) : root.nearestAnchor? (path ++ [i]) =
      if parent.layoutSpan.isSome then some parent else root.nearestAnchor? path := by
  induction path generalizing root with
  | nil =>
    obtain rfl := Option.some.inj h
    obtain ⟨c, hc⟩ := Option.isSome_iff_exists.mp hi
    simp [nearestAnchor?, hc]
  | cons j path ih =>
    obtain ⟨c, hc, hparent⟩ := at?_cons.mp h
    rw [List.cons_append, nearestAnchor?, nearestAnchor?, hc, Option.bind_some, Option.bind_some, ih hparent]
    split <;> rfl

section Above
variable {root n a : Node} {path : List Nat}

theorem nearestAnchor?_above (hn : root.at? path = some n) (ha : root.nearestAnchor? path = some a) :
    a ∈ root.preorder ∧ n ∈ a.preorder := by
  induction path generalizing root with
  | nil => cases ha
  | cons i path ih =>
    obtain ⟨c, hc, hn'⟩ := at?_cons.mp hn
    rw [nearestAnchor?, hc, Option.bind_some] at ha
    rcases Option.or_eq_some_iff.mp ha with ha | ⟨-, ha⟩
    · obtain ⟨hmem, hbelow⟩ := ih hn' ha
      exact ⟨mem_preorder_of_child (List.mem_of_getElem? hc) hmem, hbelow⟩
    · split at ha
      · obtain rfl := Option.some.inj ha
        exact ⟨root.mem_preorder_self, mem_preorder_of_at? hn⟩
      · cases ha

/-- If the parent of a node is one to measure from, nothing is nearer. -/
theorem eq_nearestAnchor_of_parent {p : Node} (hs : Single root) (hn : root.at? path = some n)
    (ha : root.nearestAnchor? path = some a) (hp : p ∈ root.preorder) (hc : n ∈ p.children) (hspan : p.layoutSpan.isSome) :
    p = a := by
  obtain ⟨above, habove⟩ := exists_at?_of_mem_preorder hp
  obtain ⟨i, hi⟩ := List.mem_iff_getElem?.mp hc
  obtain rfl := hs.at?_inj hn (at?_snoc.mpr ⟨p, habove, hi⟩) rfl
  rw [nearestAnchor?_snoc habove (by rw [hi]; rfl), if_pos hspan] at ha
  exact Option.some.inj ha

end Above

end Node

namespace Layout

/-! ### Text beside a node -/

/-- `t` is `x`, except that one comma may be missing. -/
def Spares (x t : Text) : Prop := t = x ∨ ∃ a b, x = a ++ ',' :: b ∧ t = a ++ b

/-- `t` is text that ends where `s` starts and begins in `bounds`, except that one comma may be missing. -/
def EndsAt (source : Source) (bounds s : Span) (t : Text) : Prop :=
  ∃ start x, bounds.start ≤ start ∧ gap source start s.start = .ok x ∧ Spares x t

/-- `t` is text that begins where `s` stops and ends in `bounds`, except that one comma may be missing. -/
def BeginsAt (source : Source) (bounds s : Span) (t : Text) : Prop :=
  ∃ stop x, stop ≤ bounds.stop ∧ gap source s.stop stop = .ok x ∧ Spares x t

/-- The layout of what stands at `s` is text within `bounds`. -/
structure Local (source : Source) (bounds s : Span) (l : Layout) : Prop where
  leading : EndsAt source bounds s l.leading
  trailing : BeginsAt source bounds s l.trailing

section Gaps
variable {source : Source} {bounds s : Span} {x y t : Text} {i j : Nat}

theorem Spares.size_le (h : Spares x t) : t.size ≤ x.size := by
  rcases h with rfl | ⟨a, b, rfl, rfl⟩
  · exact Nat.le_refl _
  · rw [Text.size_append, Text.size_append, Text.size_cons]
    omega

theorem spares_of_lessComma {ss : List Gap.Segment} (h : Gap.LessComma ss t) : Spares (Gap.raws ss) t := by
  rcases h with rfl | ⟨pre, post, rfl, rfl⟩
  · exact .inl rfl
  · exact .inr ⟨Gap.raws pre, Gap.raws post, by rw [Gap.raws_append]; rfl, Gap.raws_append pre post⟩

theorem gap_eq_ok_iff : gap source i j = .ok x ↔
    (∃ a b, source.text = a ++ x ++ b ∧ a.size = i ∧ (a ++ x).size = j) ∨ (j ≤ i ∧ x = []) := by
  rw [← Source.slice_eq_ok_iff, gap, Source.gap]
  by_cases hlt : i < j
  · rw [if_pos hlt]
    cases source.slice i j <;> simp [Nat.not_le.mpr hlt]
  · rw [if_neg hlt]
    constructor
    · rintro ⟨⟩
      exact .inr ⟨Nat.not_lt.mp hlt, rfl⟩
    · rintro (hslice | ⟨-, rfl⟩)
      · have hsize := Source.size_of_slice hslice
        rw [Text.size_eq_zero_iff.mp (show x.size = 0 by omega)]
      · rfl

theorem size_of_gap (h : gap source i j = .ok x) : x.size = j - i := by
  rcases gap_eq_ok_iff.mp h with ⟨a, b, -, rfl, rfl⟩ | ⟨hle, rfl⟩
  · rw [Text.size_append]
    omega
  · rw [Text.size_nil]
    omega

/-- A part of a gap that reaches to its end is a gap. -/
theorem gap_suffix (h : gap source i j = .ok (x ++ y)) : ∃ k, i ≤ k ∧ gap source k j = .ok y := by
  rcases gap_eq_ok_iff.mp h with ⟨a, b, htext, rfl, rfl⟩ | ⟨hle, hnil⟩
  · rw [← List.append_assoc] at htext ⊢
    exact ⟨(a ++ x).size, by simp, gap_eq_ok_iff.mpr (.inl ⟨a ++ x, b, htext, rfl, rfl⟩)⟩
  · exact ⟨i, Nat.le_refl i, gap_eq_ok_iff.mpr (.inr ⟨hle, (List.append_eq_nil_iff.mp hnil).2⟩)⟩

/-- A part of a gap that begins with it is a gap. -/
theorem gap_prefix (h : gap source i j = .ok (x ++ y)) : ∃ k, k ≤ j ∧ gap source i k = .ok x := by
  rcases gap_eq_ok_iff.mp h with ⟨a, b, htext, rfl, rfl⟩ | ⟨hle, hnil⟩
  · rw [← List.append_assoc] at htext ⊢
    rw [List.append_assoc _ y] at htext
    exact ⟨(a ++ x).size, by simp, gap_eq_ok_iff.mpr (.inl ⟨a, y ++ b, htext, rfl, rfl⟩)⟩
  · exact ⟨j, Nat.le_refl j, gap_eq_ok_iff.mpr (.inr ⟨hle, (List.append_eq_nil_iff.mp hnil).1⟩)⟩

/-- The right half of a gap that begins in bounds leads what stands at its end. -/
theorem endsAt_of_halves {l r : Text} (hgap : gap source i s.start = .ok t) (hi : bounds.start ≤ i)
    (h : Gap.Halves t l r) : EndsAt source bounds s r := by
  obtain ⟨ss, ss', hss, -, hr⟩ := h
  rw [← Gap.raws_segments t, hss, Gap.raws_append] at hgap
  obtain ⟨k, hk, hgap⟩ := gap_suffix hgap
  exact ⟨k, _, Nat.le_trans hi hk, hgap, spares_of_lessComma hr⟩

/-- The left half of a gap that ends in bounds trails what stands ahead of it. -/
theorem beginsAt_of_halves {l r : Text} (hgap : gap source s.stop j = .ok t) (hj : j ≤ bounds.stop)
    (h : Gap.Halves t l r) : BeginsAt source bounds s l := by
  obtain ⟨ss, ss', hss, hl, -⟩ := h
  rw [← Gap.raws_segments t, hss, Gap.raws_append] at hgap
  obtain ⟨k, hk, hgap⟩ := gap_prefix hgap
  exact ⟨k, _, Nat.le_trans hk hj, hgap, spares_of_lessComma hl⟩

/-- All the text ahead of a place stays in bounds only if they begin with the text. -/
theorem endsAt_all_iff (h : gap source 0 s.start = .ok t) :
    EndsAt source bounds s t ↔ bounds.start = 0 ∨ s.start = 0 := by
  have hsize := size_of_gap h
  constructor
  · rintro ⟨start, x, hstart, hgap, hspares⟩
    have hx := size_of_gap hgap
    have := hspares.size_le
    omega
  · intro hor
    refine ⟨bounds.start, t, Nat.le_refl _, ?_, .inl rfl⟩
    rcases hor with hzero | hzero
    · rwa [hzero]
    · rw [hzero] at hsize ⊢
      exact gap_eq_ok_iff.mpr (.inr ⟨Nat.zero_le _, Text.size_eq_zero_iff.mp hsize⟩)

/-- All the text behind a place stays in bounds only if they reach to the end of the text. -/
theorem beginsAt_all_iff (h : gap source s.stop source.size = .ok t) (hbounds : bounds.stop ≤ source.size) :
    BeginsAt source bounds s t ↔ bounds.stop = source.size ∨ source.size ≤ s.stop := by
  have hsize := size_of_gap h
  constructor
  · rintro ⟨stop, x, hstop, hgap, hspares⟩
    have hx := size_of_gap hgap
    have := hspares.size_le
    omega
  · intro hor
    refine ⟨bounds.stop, t, Nat.le_refl _, ?_, .inl rfl⟩
    rcases hor with hall | hle
    · rwa [hall]
    · exact gap_eq_ok_iff.mpr (.inr ⟨by omega, Text.size_eq_zero_iff.mp (by omega)⟩)

end Gaps

/-! ### Layout of a child -/

section Within
variable {source : Source} {parent n : Node} {bounds s : Span}

theorem endsAt_of_leadingOf {left : Option Node} {t : Text} (h : leadingOf source parent bounds left n s = .ok t)
    (hleft : ∀ l q, left = some l → l.span = some q → bounds.start ≤ q.stop) : EndsAt source bounds s t := by
  cases left with
  | none =>
    obtain ⟨g, hgap, ⟨⟩⟩ := exists_of_bind_eq_ok h
    exact endsAt_of_halves hgap (Nat.le_refl _) (Gap.halves_splitLeading parent g)
  | some l =>
    obtain ⟨g, hgap, ⟨⟩⟩ := exists_of_bind_eq_ok h
    refine endsAt_of_halves hgap ?_ (Gap.halves_splitBetween g _)
    cases hl : l.span with
    | none => exact Nat.le_refl _
    | some q => exact hleft l q rfl hl

theorem beginsAt_of_trailingOf {right : Option Node} {t : Text} (h : trailingOf source parent bounds right n s = .ok t)
    (hright : ∀ r q, right = some r → r.span = some q → q.start ≤ bounds.stop) : BeginsAt source bounds s t := by
  cases right with
  | none =>
    obtain ⟨g, hgap, ⟨⟩⟩ := exists_of_bind_eq_ok h
    exact beginsAt_of_halves hgap (Nat.le_refl _) (Gap.halves_splitTrailing g)
  | some r =>
    obtain ⟨g, hgap, ⟨⟩⟩ := exists_of_bind_eq_ok h
    refine beginsAt_of_halves hgap ?_ (Gap.halves_splitBetween g _)
    cases hr : r.span with
    | none => exact Nat.le_refl _
    | some q => exact hright r q rfl hr

/-- What is measured from a parent stays in its bounds, if all its children are there. -/
theorem local_of_within {l : Layout} (h : within source parent bounds n s = .ok l)
    (hs : bounds.start ≤ s.start ∧ s.stop ≤ bounds.stop)
    (hchildren : ∀ m ∈ parent.children, ∀ q, m.span = some q → bounds.start ≤ q.stop ∧ q.start ≤ bounds.stop) :
    l.Local source bounds s := by
  unfold within at h
  cases hindex : (anchors parent).findIdx? (·.same n) with
  | none =>
    simp only [hindex] at h
    cases h
    exact ⟨⟨s.start, [], hs.1, gap_eq_ok_iff.mpr (.inr ⟨Nat.le_refl _, rfl⟩), .inl rfl⟩,
      ⟨s.stop, [], hs.2, gap_eq_ok_iff.mpr (.inr ⟨Nat.le_refl _, rfl⟩), .inl rfl⟩⟩
  | some i =>
    simp only [hindex] at h
    obtain ⟨leading, hleading, h⟩ := exists_of_bind_eq_ok h
    obtain ⟨trailing, htrailing, ⟨⟩⟩ := exists_of_bind_eq_ok h
    refine ⟨endsAt_of_leadingOf hleading fun m q hm hq => ?_, beginsAt_of_trailingOf htrailing fun m q hm hq => ?_⟩
    · split at hm
      · cases hm
      · exact (hchildren m (mem_children_of_anchors hm) q hq).1
    · exact (hchildren m (mem_children_of_anchors hm) q hq).2

end Within

/-! ### Layout of a node -/

section Around
variable {u : Units} {c : CompilationUnit} {n a : Node} {s bounds : Span} {path : List Nat}

/-- Every span that a node of the tree has runs forward. -/
def Forward (root : Node) : Prop := ∀ n ∈ root.preorder, ∀ s, n.span = some s → s.start ≤ s.stop

/-- Without a parent to measure from, the layout is all the rest of the text. -/
theorem around_rest (hunit : u.get? s.file = some c) (hs : n.layoutSpan = some s)
    (hparent : ∀ p, u.parent? n = some p → p.layoutSpan = none) {l : Layout} (h : around u n = .ok l) :
    gap c.source 0 s.start = .ok l.leading ∧ gap c.source s.stop c.source.size = .ok l.trailing := by
  have hsource : u.source? s.file = some c.source := by rw [Units.source?, hunit, Option.map_some]
  have hnone : ((u.parent? n).bind fun p => p.layoutSpan.map fun bounds => (p, bounds)) = none := by
    refine Option.bind_eq_none_iff.mpr fun p hp => ?_
    rw [hparent p hp]
    rfl
  simp only [around, hs, hsource, hnone] at h
  obtain ⟨leading, hleading, h⟩ := exists_of_bind_eq_ok h
  obtain ⟨trailing, htrailing, ⟨⟩⟩ := exists_of_bind_eq_ok h
  exact ⟨hleading, htrailing⟩

/-- The layout of a child of the nearest node to measure from stays in its bounds. -/
theorem local_of_parent (hunit : u.get? s.file = some c) (hforward : Forward c.root) (hnested : c.root.Nested)
    (hsingle : c.root.Single) (hn : n ∈ c.root.preorder) (hs : n.layoutSpan = some s) (hparent : u.parent? n = some a)
    (hbounds : a.layoutSpan = some bounds) {l : Layout} (h : around u n = .ok l) : l.Local c.source bounds s := by
  have hspan := (Node.layoutSpan_eq_some_iff.mp hs).1
  have hplace := (Node.layoutSpan_eq_some_iff.mp hbounds).1
  have htree : u.tree? s.file = some c.root := by rw [Units.tree?, hunit, Option.map_some]
  obtain ⟨ha, hholds⟩ := Units.holds_of_parent? hspan htree hparent
  have hchild := hsingle.mem_children_of_holds hn ha hholds
  have hincludes : ∀ m ∈ a.children, ∀ q, m.span = some q → bounds.start ≤ q.start ∧ q.stop ≤ bounds.stop :=
    fun m hm q hq => (Span.includes_iff.mp (hnested a ha m hm bounds q hplace hq)).2
  rw [around_eq_within hunit hs hparent hbounds] at h
  refine local_of_within h (hincludes n hchild s hspan) fun m hm q hq => ?_
  have := hincludes m hm q hq
  have := hforward m (Node.mem_preorder_trans ha (Node.mem_preorder_child hm)) q hq
  omega

/-- The layout of a node, measured by its nearest ancestor to measure from: it can be had, and it stays in the bounds of
that ancestor exactly if this is the parent that is found for the node, or if there is no text beyond the bounds. If
nodes lie within all their ancestors, the parent is found. -/
theorem around_local_iff (u : Units) (c : CompilationUnit) (n a : Node) (s bounds : Span) (path : List Nat)
    (hunit : u.get? s.file = some c) (hfits : c.Fits) (hforward : Forward c.root) (hnested : c.root.Nested)
    (hsingle : c.root.Single) (hn : c.root.at? path = some n) (hs : n.layoutSpan = some s)
    (ha : c.root.nearestAnchor? path = some a) (hbounds : a.layoutSpan = some bounds) :
    ∃ l, around u n = .ok l ∧
      (l.Local c.source bounds s ↔ u.parent? n = some a ∨
        (bounds.start = 0 ∨ s.start = 0) ∧ (bounds.stop = c.source.size ∨ c.source.size ≤ s.stop)) ∧
      (c.root.Within → (l.Local c.source bounds s ↔
        n ∈ a.children ∨ bounds.start = 0 ∧ bounds.stop = c.source.size)) := by
  have hspan := (Node.layoutSpan_eq_some_iff.mp hs).1
  have hplace := (Node.layoutSpan_eq_some_iff.mp hbounds).1
  have hmem := Node.mem_preorder_of_at? hn
  have htree : u.tree? s.file = some c.root := by rw [Units.tree?, hunit, Option.map_some]
  obtain ⟨hmemA, hbelow⟩ := Node.nearestAnchor?_above hn ha
  have hstop : bounds.stop ≤ c.source.size := by
    obtain ⟨x, y, htext, hx⟩ := Text.isBoundary_iff.mp (hfits a hmemA bounds hplace).2
    rw [Source.size, htext, Text.size_append]
    omega
  obtain ⟨l, hl⟩ := around_ok hunit hfits hmem hspan
  have hiff : l.Local c.source bounds s ↔ u.parent? n = some a ∨
      (bounds.start = 0 ∨ s.start = 0) ∧ (bounds.stop = c.source.size ∨ c.source.size ≤ s.stop) := by
    by_cases hparent : u.parent? n = some a
    · exact iff_of_true (local_of_parent hunit hforward hnested hsingle hmem hs hparent hbounds hl) (.inl hparent)
    · have hnone : ∀ p, u.parent? n = some p → p.layoutSpan = none := by
        intro p hp
        obtain ⟨hmemP, hholds⟩ := Units.holds_of_parent? hspan htree hp
        refine Option.not_isSome_iff_eq_none.mp fun hsome => hparent ?_
        rw [hp, Node.eq_nearestAnchor_of_parent hsingle hn ha hmemP (hsingle.mem_children_of_holds hmem hmemP hholds) hsome]
      obtain ⟨hleading, htrailing⟩ := around_rest hunit hs hnone hl
      rw [or_iff_right hparent, ← endsAt_all_iff hleading, ← beginsAt_all_iff htrailing hstop]
      exact ⟨fun h => ⟨h.leading, h.trailing⟩, fun h => ⟨h.1, h.2⟩⟩
  refine ⟨l, hl, hiff, fun hwithin => hiff.trans ?_⟩
  have hincludes := (Span.includes_iff.mp (hwithin a hmemA n hbelow bounds s hplace hspan)).2
  have hparent : u.parent? n = some a ↔ n ∈ a.children := by
    rw [Units.parent?_eq_some_iff hwithin hsingle hmem hspan htree]
    exact ⟨fun h => hsingle.mem_children_of_holds hmem h.1 h.2, fun h => ⟨hmemA, n, h, n.same_refl⟩⟩
  rw [hparent]
  refine or_congr_right ?_
  omega

/-- The text `x{a}y`, which may have blanks around the name, with a block at its braces, and in there another one around
the name and the blanks that may be transparent. -/
def bracedName (blank : Text) (transparent : Bool) : CompilationUnit where
  source := { name := "A.scala", text := "x\x7b".toList ++ blank ++ ['a'] ++ blank ++ "\x7dy".toList }
  root := .mk (.built 2) (some (.range "A.scala" 1 (4 + 2 * blank.size))) (.block
    [.mk (.built 1) (some { Span.range "A.scala" 2 (3 + 2 * blank.size) with transparent }) (.block
      [.letter 0 "a" (2 + blank.size)])])

theorem placed_of_checks {c : CompilationUnit}
    (hplaces : (c.root.preorder.all fun n => n.span.all fun s =>
      (c.source.text.isBoundary s.start && c.source.text.isBoundary s.stop) && decide (s.start ≤ s.stop)) = true)
    (hwithin : (c.root.preorder.all fun n => n.preorder.all (n.placesAll fun s t => s.includes t)) = true)
    {ids : List Identity} (hids : c.root.preorder.map (·.identity) = ids) (hnodup : ids.Nodup) :
    c.Fits ∧ Forward c.root ∧ c.root.Within ∧ c.root.Single := by
  simp only [List.all_eq_true, Option.all_eq_true, Bool.and_eq_true, decide_eq_true_eq, Node.placesAll_iff]
    at hplaces hwithin
  refine ⟨fun n hn s hs => (hplaces n hn s hs).1, fun n hn s hs => (hplaces n hn s hs).2, hwithin,
    Node.single_of_identities hids hnodup⟩

/-- With blanks around the name, the inner block is the one to measure from, and the layout of the name is in it. -/
theorem bracedName_local :
    let c := bracedName [' '] false
    c.Fits ∧ Forward c.root ∧ c.root.Nested ∧ c.root.Single ∧ ∃ n a l, c.root.at? [0, 0] = some n ∧
      c.root.nearestAnchor? [0, 0] = some a ∧ around (.single c) n = .ok l ∧ (l.leading, l.trailing) = ([' '], [' ']) ∧
      l.Local c.source (.range "A.scala" 2 5) (.range "A.scala" 3 4) := by
  intro c
  obtain ⟨hfits, hforward, hwithin, hsingle⟩ := placed_of_checks (c := c) (by cbv) (by cbv)
    (show _ = [.built 2, .built 1, .built 0] by cbv) (by decide)
  have hnested : c.root.Nested := hwithin.nested
  have haround : around (.single c) (.letter 0 "a" 3) = .ok { leading := [' '], trailing := [' '] } := by cbv
  obtain ⟨l, hl, -, hiff⟩ := around_local_iff (.single c) c (.letter 0 "a" 3) _ (.range "A.scala" 3 4)
    (.range "A.scala" 2 5) [0, 0] rfl hfits hforward hnested hsingle (by cbv) (by rfl) (by cbv) (by rfl)
  cases haround.symm.trans hl
  exact ⟨hfits, hforward, hnested, hsingle, _, _, _, by cbv, by cbv, haround, rfl,
    (hiff hwithin).mpr (.inl (List.mem_singleton_self _))⟩

/-- Once that block is transparent, the layout of the name takes in what is ahead of the braces. -/
theorem bracedName_not_local :
    let c := bracedName [] true
    c.Fits ∧ Forward c.root ∧ c.root.Within ∧ c.root.Single ∧ ∃ n l, c.root.at? [0, 0] = some n ∧
      c.root.nearestAnchor? [0, 0] = some c.root ∧ around (.single c) n = .ok l ∧
      (l.leading, l.trailing) = ("x\x7b".toList, "\x7dy".toList) ∧
      ¬ l.Local c.source (.range "A.scala" 1 4) (.range "A.scala" 2 3) := by
  intro c
  obtain ⟨hfits, hforward, hwithin, hsingle⟩ := placed_of_checks (c := c) (by cbv) (by cbv)
    (show _ = [.built 2, .built 1, .built 0] by cbv) (by decide)
  have hgap : gap c.source 0 2 = .ok "x\x7b".toList := by cbv
  refine ⟨hfits, hforward, hwithin, hsingle, _, { leading := "x\x7b".toList, trailing := "\x7dy".toList }, by cbv, by cbv,
    by cbv, rfl, fun hlocal => ?_⟩
  exact absurd ((endsAt_all_iff hgap).mp hlocal.leading) (by decide)

end Around

end Layout

end Reprint
