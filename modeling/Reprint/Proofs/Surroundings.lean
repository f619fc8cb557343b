import Reprint.Layout.Around
import Reprint.Proofs.Cuts
import Reprint.Proofs.Placement
/-!
The text around base nodes. In a tree that holds each node once, the parent of a node is found, and nothing else.
If moreover every span ends between two characters of the text, the gaps around a node can be cut out, and the node
gets its share of the gaps to both its neighbours.
-/

namespace Reprint

namespace Node

/-! ### Parents -/

/-- Each node stands once in the tree. -/
def Single (root : Node) : Prop := root.preorder.Pairwise fun a b => a.identity ≠ b.identity

theorem single_of_identities {root : Node} {ids : List Identity} (h : root.preorder.map (·.identity) = ids)
    (hids : ids.Nodup) : Single root := by
  rw [Single, ← List.pairwise_map, h]
  exact hids

/-- What holds of any two nodes of a tree holds of those below a node. -/
theorem pairwise_preorder_sub {R : Node → Node → Prop} {root n : Node} (h : root.preorder.Pairwise R)
    (hn : n ∈ root.preorder) : n.preorder.Pairwise R := by
  induction root using children_induction with
  | step root ih =>
    rcases mem_preorder_iff.mp hn with rfl | ⟨c, hc, hn⟩
    · exact h
    · rw [preorder_eq, List.pairwise_cons, List.pairwise_flatMap] at h
      exact ih c hc (h.2.1 c hc) hn

theorem pairwise_children {R : Node → Node → Prop} {n : Node} (h : n.preorder.Pairwise R) :
    n.children.Pairwise R := by
  rw [preorder_eq, List.pairwise_cons, List.pairwise_flatMap] at h
  exact h.2.2.imp fun hR => hR _ (mem_preorder_self _) _ (mem_preorder_self _)

theorem Single.sub {root n : Node} (h : Single root) (hn : n ∈ root.preorder) : Single n := pairwise_preorder_sub h hn

/-- The children of a node are told apart by their identities. -/
theorem Single.children {n a b : Node} {i j : Nat} (h : Single n) (hij : i < j) (ha : n.children[i]? = some a)
    (hb : n.children[j]? = some b) : a.same b = false := by
  obtain ⟨hi, rfl⟩ := List.getElem?_eq_some_iff.mp ha
  obtain ⟨hj, rfl⟩ := List.getElem?_eq_some_iff.mp hb
  exact Bool.eq_false_iff.mpr fun hsame =>
    List.pairwise_iff_getElem.mp (pairwise_children h) i j hi hj hij (same_iff.mp hsame)

theorem Single.sharing {root : Node} (h : Single root) : Sharing root root := fun _ ha _ hb hsame =>
  eq_of_pairwise h ha hb (fun hne => hne (same_iff.mp hsame)) fun hne => hne (same_iff.mp hsame).symm

/-- Each node that has a place stands once in the tree. -/
def Once (root : Node) : Prop :=
  root.preorder.Pairwise fun a b => a.span.isSome ∨ b.span.isSome → a.identity ≠ b.identity

theorem Single.once {root : Node} (h : Single root) : Once root := by
  refine List.Pairwise.imp ?_ h
  exact fun hne _ => hne

theorem Once.sub {root n : Node} (h : Once root) (hn : n ∈ root.preorder) : Once n := pairwise_preorder_sub h hn

/-- A node that stood twice in the tree would share its range and its tag with itself. -/
theorem Scattered.once {root : Node} (h : Scattered root) (hsharing : Sharing root root) : Once root := by
  refine List.Pairwise.imp_of_mem ?_ h
  intro a b ha hb hab hplace hid
  obtain rfl := hsharing a ha b hb (same_iff.mpr hid)
  obtain ⟨s, hs⟩ := Option.isSome_iff_exists.mp (or_self_iff.mp hplace)
  exact hab s s hs hs (Span.sameRange_refl s) rfl

theorem parentOf?_eq (target : Node) (q : Span) (n : Node) : parentOf? target q n =
    if n.span.any (!·.includes q) then none
    else if n.children.any (·.same target) then some n
    else n.children.findSome? (parentOf? target q) := by
  have hattach : (n.children.attach.findSome? fun x => parentOf? target q x.1) =
      n.children.findSome? (parentOf? target q) := by
    have := List.findSome?_map (l := n.children.attach) (f := Subtype.val) (p := parentOf? target q)
    rw [List.attach_map_subtype_val] at this
    exact this.symm
  rw [parentOf?, ← hattach]

/-- Whatever is found includes the place and has a child with the identity in question. -/
theorem parentOf?_inv {target n m : Node} {q : Span} (h : parentOf? target q n = some m) :
    m ∈ n.preorder ∧ (∀ s, m.span = some s → s.includes q) ∧ ∃ c ∈ m.children, c.same target := by
  induction n using children_induction with
  | step n ih =>
    rw [parentOf?_eq] at h
    split at h
    · cases h
    · next hspan =>
      split at h
      · next hany =>
        obtain rfl := Option.some.inj h
        refine ⟨n.mem_preorder_self, fun s hs => ?_, List.any_eq_true.mp hany⟩
        simpa [hs] using hspan
      · obtain ⟨c, hc, hm⟩ := List.exists_of_findSome?_eq_some h
        obtain ⟨hmem, hchild⟩ := ih c hc hm
        exact ⟨mem_preorder_of_child hc hmem, hchild⟩

/-- Children of the nodes of a tree are below its root. -/
theorem mem_below_of_child {root parent c : Node} (hparent : parent ∈ root.preorder) (hc : c ∈ parent.children) :
    c ∈ root.children.flatMap preorder := by
  rcases mem_preorder_iff.mp hparent with rfl | ⟨d, hd, hmem⟩
  · exact List.mem_flatMap.mpr ⟨c, hc, c.mem_preorder_self⟩
  · exact List.mem_flatMap.mpr ⟨d, hd, mem_preorder_trans hmem (mem_preorder_child hc)⟩

/-- In a tree that holds each node once, the parent of a node is found if the nodes above include that node. -/
theorem parentOf?_of_child {root parent c : Node} {q : Span} (he : Encloses root parent q) (hs : Once root)
    (hparent : parent ∈ root.preorder) (hc : c ∈ parent.children) (hq : c.span.isSome) :
    parentOf? c q root = some parent := by
  induction root using children_induction with
  | step n ih =>
    have hspan : n.span.any (!·.includes q) = false := by
      cases hn : n.span with
      | none => rfl
      | some s => simp [he n n.mem_preorder_self hparent s hn]
    rw [parentOf?_eq, hspan, if_neg Bool.false_ne_true]
    rcases mem_preorder_iff.mp hparent with rfl | ⟨d, hd, hmem⟩
    · have hany : parent.children.any (·.same c) = true := List.any_eq_true.mpr ⟨c, hc, same_refl c⟩
      rw [if_pos hany]
    · have hcd : c ∈ d.preorder := mem_preorder_trans hmem (mem_preorder_child hc)
      have hsd : Once d := hs.sub (mem_preorder_child hd)
      obtain ⟨l, r, hl⟩ := List.append_of_mem hd
      rw [Once, preorder_eq, List.pairwise_cons, List.pairwise_flatMap] at hs
      have hacross := hs.2.2
      rw [hl, List.pairwise_append, List.pairwise_cons] at hacross
      obtain ⟨-, ⟨hright, -⟩, hleft⟩ := hacross
      -- `c` stands below `d` and nowhere else.
      have hnone : n.children.any (·.same c) = false := by
        rw [List.any_eq_false, hl]
        intro e he hsame
        have hid := same_iff.mp hsame
        rcases List.mem_append.mp he with he | he
        · exact hleft e he d (List.mem_cons_self ..) e e.mem_preorder_self c hcd (.inr hq) hid
        · rcases List.mem_cons.mp he with rfl | he
          · rw [Once, preorder_eq, List.pairwise_cons] at hsd
            exact hsd.1 c (mem_below_of_child hmem hc) (.inr hq) hid
          · exact hright e he c hcd e e.mem_preorder_self (.inl hq) hid.symm
      rw [hnone, if_neg Bool.false_ne_true]
      have hfound := ih d hd (he.sub (mem_preorder_child hd)) hsd hmem
      refine List.findSome?_eq_some_iff.mpr ⟨l, d, r, hl, hfound, fun e he => ?_⟩
      refine Option.eq_none_iff_forall_ne_some.mpr fun m hm => ?_
      obtain ⟨hm, -, x, hx, hsame⟩ := parentOf?_inv hm
      exact hleft e he d (List.mem_cons_self ..) x (mem_preorder_trans hm (mem_preorder_child hx)) c hcd (.inr hq)
        (same_iff.mp hsame)

theorem layoutSpan_eq_some_iff {n : Node} {s : Span} :
    n.layoutSpan = some s ↔ n.span = some s ∧ s.transparent = false := by
  rw [layoutSpan, Option.filter_eq_some_iff, Bool.not_eq_true']

end Node

theorem Units.parent?_of_child {u : Units} {root parent c : Node} {q : Span} (hroot : u.tree? q.file = some root)
    (he : root.Encloses parent q) (hs : root.Once) (hparent : parent ∈ root.preorder) (hc : c ∈ parent.children)
    (hq : c.span = some q) : u.parent? c = some parent := by
  refine Option.bind_eq_some_iff.mpr ⟨q, hq, Option.bind_eq_some_iff.mpr ⟨root, hroot, ?_⟩⟩
  exact Node.parentOf?_of_child he hs hparent hc (by rw [hq]; rfl)

theorem Units.parent?_inv {u : Units} {parent c : Node} (h : u.parent? c = some parent) :
    ∃ q root, c.span = some q ∧ u.tree? q.file = some root ∧ parent ∈ root.preorder ∧
      ∀ s, parent.span = some s → s.includes q := by
  obtain ⟨q, hq, h⟩ := Option.bind_eq_some_iff.mp h
  obtain ⟨root, hroot, h⟩ := Option.bind_eq_some_iff.mp h
  obtain ⟨hmem, hincludes, -⟩ := Node.parentOf?_inv h
  exact ⟨q, root, hq, hroot, hmem, hincludes⟩

/-- Every span begins and ends between two characters of the text. -/
def CompilationUnit.Fits (c : CompilationUnit) : Prop :=
  ∀ n ∈ c.root.preorder, ∀ s, n.span = some s → c.source.text.isBoundary s.start ∧ c.source.text.isBoundary s.stop

namespace Layout

/-! ### The text around a node -/

theorem exists_of_bind_eq_ok {ε α β : Type} {m : Except ε α} {f : α → Except ε β} {b : β} (h : (m >>= f) = .ok b) :
    ∃ a, m = .ok a ∧ f a = .ok b := by
  cases m with
  | error e => cases h
  | ok a => exact ⟨a, rfl, h⟩

section Gaps
variable {source : Source} {parent n : Node} {bounds s : Span}

theorem gap_ok {start stop : Nat} (hstart : source.text.isBoundary start) (hstop : source.text.isBoundary stop) :
    ∃ t, gap source start stop = .ok t := by
  by_cases hlt : start < stop
  · have hslice : source.text.slice? start stop = some ((source.text.before stop).after start) := by
      rw [Text.slice?, if_pos ⟨Nat.le_of_lt hlt, hstart, hstop⟩]
    exact ⟨_, by rw [gap, Source.gap, if_pos hlt, Source.slice, hslice]⟩
  · exact ⟨[], by rw [gap, Source.gap, if_neg hlt]⟩

theorem leadingOf_ok {left : Option Node} (hbounds : source.text.isBoundary bounds.start)
    (hs : source.text.isBoundary s.start)
    (hleft : ∀ l t, left = some l → l.span = some t → source.text.isBoundary t.stop) :
    ∃ t, leadingOf source parent bounds left n s = .ok t := by
  cases left with
  | none =>
    obtain ⟨t, ht⟩ := gap_ok hbounds hs
    exact ⟨_, by rw [leadingOf, ht]; rfl⟩
  | some l =>
    have hstart : source.text.isBoundary ((l.span.map (·.stop)).getD bounds.start) := by
      cases hl : l.span with
      | none => exact hbounds
      | some t => exact hleft l t rfl hl
    obtain ⟨t, ht⟩ := gap_ok hstart hs
    exact ⟨_, by rw [leadingOf, ht]; rfl⟩

theorem trailingOf_ok {right : Option Node} (hbounds : source.text.isBoundary bounds.stop)
    (hs : source.text.isBoundary s.stop)
    (hright : ∀ r t, right = some r → r.span = some t → source.text.isBoundary t.start) :
    ∃ t, trailingOf source parent bounds right n s = .ok t := by
  cases right with
  | none =>
    obtain ⟨t, ht⟩ := gap_ok hs hbounds
    exact ⟨_, by rw [trailingOf, ht]; rfl⟩
  | some r =>
    have hstop : source.text.isBoundary ((r.span.map (·.start)).getD bounds.stop) := by
      cases hr : r.span with
      | none => exact hbounds
      | some t => exact hright r t rfl hr
    obtain ⟨t, ht⟩ := gap_ok hs hstop
    exact ⟨_, by rw [trailingOf, ht]; rfl⟩

/-- A node gets its share of the gaps to its neighbours. -/
theorem within_inv {i : Nat} {l : Layout} (h : within source parent bounds n s = .ok l)
    (hi : (anchors parent)[i]? = some n)
    (hfirst : ∀ (j : Nat) (m : Node), j < i → (anchors parent)[j]? = some m → m.same n = false) :
    leadingOf source parent bounds (if i = 0 then none else (anchors parent)[i - 1]?) n s = .ok l.leading ∧
      trailingOf source parent bounds (anchors parent)[i + 1]? n s = .ok l.trailing := by
  have hindex : (anchors parent).findIdx? (·.same n) = some i := by
    obtain ⟨hlt, hget⟩ := List.getElem?_eq_some_iff.mp hi
    refine List.findIdx?_eq_some_iff_getElem.mpr ⟨hlt, by rw [hget]; exact n.same_refl, fun j hj => ?_⟩
    rw [hfirst j _ hj (List.getElem?_eq_getElem (Nat.lt_trans hj hlt))]
    exact Bool.false_ne_true
  simp only [within, hindex] at h
  obtain ⟨leading, hleading, h⟩ := exists_of_bind_eq_ok h
  obtain ⟨trailing, htrailing, ⟨⟩⟩ := exists_of_bind_eq_ok h
  exact ⟨hleading, htrailing⟩

theorem mem_children_of_anchors {i : Nat} {m : Node} (h : (anchors parent)[i]? = some m) : m ∈ parent.children :=
  (List.mem_filter.mp (List.mem_of_getElem? h)).1

/-- Where all spans fit the text, so do the gaps around a node. -/
theorem within_ok {c : CompilationUnit} (hfits : c.Fits) (hparent : parent ∈ c.root.preorder)
    (hbounds : parent.span = some bounds) (hn : n ∈ c.root.preorder) (hs : n.span = some s) :
    ∃ l, within c.source parent bounds n s = .ok l := by
  have hchild : ∀ (i : Nat) (m : Node), (anchors parent)[i]? = some m → m ∈ c.root.preorder := fun i m hm =>
    Node.mem_preorder_trans hparent (Node.mem_preorder_child (mem_children_of_anchors hm))
  cases hindex : (anchors parent).findIdx? (·.same n) with
  | none => exact ⟨{}, by rw [within, hindex]⟩
  | some i =>
    obtain ⟨leading, hleading⟩ : ∃ t, leadingOf c.source parent bounds
        (if i = 0 then none else (anchors parent)[i - 1]?) n s = .ok t := by
      refine leadingOf_ok (hfits _ hparent _ hbounds).1 (hfits _ hn _ hs).1 fun l t hl ht => ?_
      split at hl
      · cases hl
      · exact (hfits l (hchild _ l hl) t ht).2
    obtain ⟨trailing, htrailing⟩ : ∃ t, trailingOf c.source parent bounds (anchors parent)[i + 1]? n s = .ok t :=
      trailingOf_ok (hfits _ hparent _ hbounds).2 (hfits _ hn _ hs).2 fun r t hr ht =>
        (hfits r (hchild _ r hr) t ht).1
    refine ⟨{ leading, trailing }, ?_⟩
    simp only [within, hindex, hleading, htrailing]
    rfl

end Gaps

section Around
variable {u : Units} {c : CompilationUnit} {n parent : Node} {s bounds : Span}

theorem around_eq_within (hunit : u.get? s.file = some c) (hs : n.layoutSpan = some s)
    (hparent : u.parent? n = some parent) (hbounds : parent.layoutSpan = some bounds) :
    around u n = within c.source parent bounds n s := by
  have hsource : u.source? s.file = some c.source := by rw [Units.source?, hunit, Option.map_some]
  simp only [around, hs, hsource, hparent, Option.bind_some, hbounds, Option.map_some]

theorem around_ok (hunit : u.get? s.file = some c) (hfits : c.Fits) (hn : n ∈ c.root.preorder) (hs : n.span = some s) :
    ∃ l, around u n = .ok l := by
  cases hlayout : n.layoutSpan with
  | none => exact ⟨{}, by rw [around, hlayout]⟩
  | some s' =>
    cases hs.symm.trans (Node.layoutSpan_eq_some_iff.mp hlayout).1
    have hsource : u.source? s.file = some c.source := by rw [Units.source?, hunit, Option.map_some]
    cases hparent : (u.parent? n).bind fun p => p.layoutSpan.map fun bounds => (p, bounds) with
    | some x =>
      obtain ⟨parent, hp, hx⟩ := Option.bind_eq_some_iff.mp hparent
      obtain ⟨bounds, hbounds, rfl⟩ := Option.map_eq_some_iff.mp hx
      obtain ⟨q, root, hq, hroot, hmem, -⟩ := Units.parent?_inv hp
      cases hs.symm.trans hq
      have hroot' : u.tree? s.file = some c.root := by rw [Units.tree?, hunit, Option.map_some]
      cases hroot'.symm.trans hroot
      obtain ⟨l, hl⟩ := within_ok hfits hmem (Node.layoutSpan_eq_some_iff.mp hbounds).1 hn hs
      exact ⟨l, (around_eq_within hunit hlayout hp hbounds).trans hl⟩
    | none =>
      obtain ⟨leading, hleading⟩ := gap_ok (Text.isBoundary_zero _) (hfits n hn s hs).1
      obtain ⟨trailing, htrailing⟩ := gap_ok (hfits n hn s hs).2 (Text.isBoundary_size _)
      refine ⟨{ leading, trailing }, ?_⟩
      simp only [around, hlayout, hsource, hparent]
      rw [hleading, Source.size, htrailing]
      rfl

end Around

end Layout

end Reprint
