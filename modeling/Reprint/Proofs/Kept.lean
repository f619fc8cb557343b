import Mathlib
import Reprint.Proofs.Discovery
import Reprint.Proofs.Runs
import Reprint.Proofs.Splice
/-!
What regeneration keeps. In a well placed tree discovery goes down in step with the base tree, and a region that
it finds that way stands in its place. A node that both trees hold at one path overlaps no such region, unless the
region belongs to a node above it. Below an altered node discovery no longer looks whether children are where they
were. A region found there may lie outside of that node (`Escaped`), and only such a region reaches into kept code.
-/

namespace Reprint

/-- Of two paths one goes on from the other, or they part at some node. -/
theorem path_cases (p q : List Nat) : p <+: q ∨ q <+: p ∨
    ∃ k i j p' q', i ≠ j ∧ p = k ++ i :: p' ∧ q = k ++ j :: q' := by
  induction p generalizing q with
  | nil => exact .inl List.nil_prefix
  | cons i p ih =>
    cases q with
    | nil => exact .inr (.inl List.nil_prefix)
    | cons j q =>
      by_cases hij : i = j
      · subst hij
        rcases ih q with h | h | ⟨k, a, b, p', q', hab, rfl, rfl⟩
        · exact .inl (List.cons_prefix_cons.mpr ⟨rfl, h⟩)
        · exact .inr (.inl (List.cons_prefix_cons.mpr ⟨rfl, h⟩))
        · exact .inr (.inr ⟨i :: k, a, b, p', q', hab, rfl, rfl⟩)
      · exact .inr (.inr ⟨[], i, j, p, q, hij, rfl, rfl⟩)

namespace Node

/-- Nodes at paths that part do not overlap. -/
theorem Apart.at? {root x y : Node} {s t : Span} (h : Apart root) {k p q : List Nat} {i j : Nat} (hij : i ≠ j)
    (hx : root.at? (k ++ i :: p) = some x) (hy : root.at? (k ++ j :: q) = some y) (hs : x.span = some s)
    (ht : y.span = some t) : ¬s.overlaps t := by
  rw [at?_append, Option.bind_eq_some_iff] at hx hy
  obtain ⟨m, hm, hx⟩ := hx
  obtain ⟨m', hm', hy⟩ := hy
  cases hm.symm.trans hm'
  obtain ⟨a, ha, hx⟩ := at?_cons.mp hx
  obtain ⟨b, hb, hy⟩ := at?_cons.mp hy
  exact h m (mem_preorder_of_at? hm) i j a b hij ha hb x (mem_preorder_of_at? hx) y (mem_preorder_of_at? hy) s t hs ht

end Node

namespace Region
open Node

/-- A region in its place: its top and its range are those of the edited and the base node at one path, and no
node along the path was passed over. -/
structure InPlace (u : Units) (edited root : Node) (r : Region) (path : List Nat) : Prop where
  top : edited.at? path = some r.top
  base : ∃ b, root.at? path = some b ∧ b.span = some r.range
  touched : ∀ k n, k <+: path → edited.at? k = some n → u.isUntouched n = false

/-- A region found below an altered node, and not within the range of that node. -/
def Escaped (u : Units) (edited : Node) (r : Region) : Prop :=
  ∃ n ∈ edited.preorder, ∃ base range, u.counterpart? n = some base ∧ base.span = some range ∧
    n.contentDiffers base = true ∧ (∃ c ∈ n.children, r ∈ search u c) ∧ ¬range.includes r.range

section Found
variable {u : Units} {edited root : Node} {r : Region}

/-- Regions are in their places or have escaped, if no region ahead of them includes them. -/
theorem search_inPlace (hw : Within root) (hd : Distinct root)
    (hunit : ∀ d ∈ root.preorder, ∀ t, d.span = some t → u.tree? t.file = some root)
    {n b : Node} {path : List Nat} {pre post : List Region} (hn : edited.at? path = some n)
    (hb : root.at? path = some b) (hcp : u.counterpart? n = some b)
    (habove : ∀ k m, k <+: path → k ≠ path → edited.at? k = some m → u.isUntouched m = false)
    (h : search u n = pre ++ r :: post) (hpre : ∀ x ∈ pre, ¬x.range.includes r.range) :
    Escaped u edited r ∨ ∃ path, InPlace u edited root r path := by
  induction n using children_induction generalizing b path pre post with
  | step n ih =>
    obtain ⟨base, range, hcp', hne, hrange, hcases⟩ := search_split h
    cases hcp.symm.trans hcp'
    have hpath : ∀ k m, k <+: path → edited.at? k = some m → u.isUntouched m = false := by
      intro k m hk hm
      by_cases hkp : k = path
      · rw [hkp, hn] at hm
        cases hm
        exact Units.isUntouched_eq_false hcp hne
      · exact habove k m hk hkp hm
    have own : r = of u n range → ∃ path, InPlace u edited root r path := by
      rintro rfl
      exact ⟨path, hn, ⟨b, hb, hrange⟩, hpath⟩
    rcases hcases with ⟨hdiff, hr | ⟨hown, c, hc, hr⟩⟩ | ⟨-, -, hr⟩ | ⟨-, i, new, place, hrep, rfl⟩ |
      ⟨-, j, c, d, hc, hdj, hslot, pre', post', hsearch, hsub⟩
    · exact .inr (own hr)
    · exact .inl ⟨n, mem_preorder_of_at? hn, b, range, hcp, hrange, hdiff, ⟨c, hc, hr⟩, hpre _ hown⟩
    · exact .inr (own hr)
    · -- The replaced statement has no place of its own, so nothing can pass it over.
      obtain ⟨-, hnew, hnone, ⟨old, hold, hplace⟩, -⟩ := replaced?_inv hrep
      refine .inr ⟨path ++ [i], at?_snoc.mpr ⟨n, hn, hnew⟩, ⟨old, at?_snoc.mpr ⟨b, hb, hold⟩, hplace⟩, ?_⟩
      intro k m hk hm
      rcases List.prefix_concat_iff.mp hk with rfl | hk
      · obtain ⟨n', hn', hm⟩ := at?_snoc.mp hm
        cases hn.symm.trans hn'
        cases hnew.symm.trans hm
        exact Units.isUntouched_unplaced hnone
      · exact hpath k m hk hm
    · have hdmem : d ∈ root.preorder :=
        mem_preorder_trans (mem_preorder_of_at? hb) (mem_preorder_child (List.mem_of_getElem? hdj))
      have hcpd : u.counterpart? c = some d := by
        cases ht : d.span with
        | some t => exact Units.counterpart?_of_sameSlot hw hd hdmem ht (hunit d hdmem t ht) hslot
        | none =>
          -- Without a place a child has no counterpart, and nothing is found below it.
          obtain ⟨_, ⟨_, t, _, ht', _⟩ | ⟨hnone, _⟩⟩ := sameSlot_iff.mp hslot
          · rw [ht] at ht'
            cases ht'
          · rw [search_eq, Units.counterpart?_unplaced hnone] at hsearch
            simp at hsearch
      refine ih c (List.mem_of_getElem? hc) (at?_snoc.mpr ⟨n, hn, hc⟩) (at?_snoc.mpr ⟨b, hb, hdj⟩) hcpd ?_ hsearch
        fun x hx => hpre x (hsub x hx)
      intro k m hk hkne hm
      rcases List.prefix_concat_iff.mp hk with rfl | hk
      · exact absurd rfl hkne
      · exact hpath k m hk hm

/-- Every region that is returned is in its place or has escaped. -/
theorem find_inPlace {q : Span} (hw : Within root) (hd : Distinct root) (hroot : u.tree? q.file = some root)
    (hq : root.span = some q) (hpair : edited.sameSlot root) (hr : r ∈ find u edited) :
    Escaped u edited r ∨ ∃ path, InPlace u edited root r path := by
  have hunit : ∀ d ∈ root.preorder, ∀ t, d.span = some t → u.tree? t.file = some root := by
    intro d hdm t ht
    rw [← (Span.includes_iff.mp (hw root root.mem_preorder_self d hdm q t hq ht)).1]
    exact hroot
  have hcp : u.counterpart? edited = some root :=
    Units.counterpart?_of_sameSlot hw hd root.mem_preorder_self hq hroot hpair
  obtain ⟨-, pre, post, hsplit, hpre⟩ := mem_widest_split hr
  have hat : ∀ n : Node, n.at? [] = some n := fun _ => rfl
  refine search_inPlace hw hd hunit (hat edited) (hat root) hcp ?_ hsplit hpre
  intro k m hk hkne
  exact absurd (List.prefix_nil.mp hk) hkne

/-- A region in its place does not overlap an untouched node that both trees hold at one path, unless it belongs
to a node above that one. -/
theorem InPlace.not_overlaps {σ path : List Nat} {n : Node} {s : Span} (hr : InPlace u edited root r σ)
    (ha : Apart root) (he : edited.at? path = some n) (hb : root.at? path = some n) (hs : n.span = some s)
    (hn : u.isUntouched n = true) (htop : ∀ k, k <+: path → k ≠ path → edited.at? k ≠ some r.top) :
    ¬r.range.overlaps s := by
  rcases path_cases σ path with h | h | ⟨k, i, j, σ', path', hij, rfl, rfl⟩
  · by_cases hσ : σ = path
    · subst hσ
      exact absurd hn (by rw [hr.touched σ n h he]; exact Bool.false_ne_true)
    · exact absurd hr.top (htop σ h hσ)
  · exact absurd hn (by rw [hr.touched path n h he]; exact Bool.false_ne_true)
  · obtain ⟨b, hσ, hrange⟩ := hr.base
    exact ha.at? hij hσ hb hrange hs

/-- Regions that have not escaped are in the file of a kept node and clear of it. -/
theorem find_clear {path : List Nat} {n : Node} {s : Span} (hplaced : WellPlaced root)
    (hroot : u.tree? s.file = some root) (hpair : edited.sameSlot root) (he : edited.at? path = some n)
    (hb : root.at? path = some n) (hs : n.span = some s) (hr : r ∈ find u edited)
    (htop : ∀ k, k <+: path → k ≠ path → edited.at? k ≠ some r.top) :
    Escaped u edited r ∨ (r.range.file = s.file ∧ ¬r.range.overlaps s) := by
  obtain ⟨hw, ha, hd⟩ := hplaced
  have hn : n ∈ root.preorder := mem_preorder_of_at? hb
  cases hq : root.span with
  | none =>
    -- Roots without a place have no counterpart, and then there is no region at all.
    obtain ⟨_, ⟨_, t, _, ht, _⟩ | ⟨hnone, _⟩⟩ := sameSlot_iff.mp hpair
    · rw [hq] at ht
      cases ht
    · have hnil : search u edited = [] := by rw [search_eq, Units.counterpart?_unplaced hnone]
      rw [find_eq_nil_iff.mpr hnil] at hr
      cases hr
  | some q =>
    have hfile : ∀ m ∈ root.preorder, ∀ t, m.span = some t → q.file = t.file := fun m hm t ht =>
      (Span.includes_iff.mp (hw root root.mem_preorder_self m hm q t hq ht)).1
    have hroot' : u.tree? q.file = some root := by rw [hfile n hn s hs, hroot]
    rcases find_inPlace hw hd hroot' hq hpair hr with h | ⟨σ, hσ⟩
    · exact .inl h
    · obtain ⟨b, hbσ, hrange⟩ := hσ.base
      refine .inr ⟨?_, hσ.not_overlaps ha he hb hs ?_ htop⟩
      · rw [← hfile b (mem_preorder_of_at? hbσ) _ hrange, hfile n hn s hs]
      · exact Units.isUntouched_of_self (Units.counterpart?_self hw hd hn hs hroot)

end Found

end Region

namespace Printer
open Node Region

/-- The edits of a regeneration have the ranges of the regions. -/
theorem mem_edits_range {p : Printer} {edited : Node} {g : Regeneration} (h : p.regenerate edited = .ok g) :
    ∀ e ∈ g.edits, ∃ r ∈ find p.units edited, e.start = r.range.start ∧ e.stop = r.range.stop := by
  have hrun := (regenerate_eq_ok_iff.mp h).2
  generalize find p.units edited = rs at hrun
  generalize ([] : List Diagnostic) = ds at hrun
  generalize g.edits = es at hrun
  induction rs generalizing es ds with
  | nil =>
    obtain ⟨rfl, -⟩ := Yields.mapM_nil_iff.mp hrun
    simp
  | cons r rs ih =>
    obtain ⟨e, ds₁, es', he, hes, rfl⟩ := Yields.mapM_cons_iff.mp hrun
    intro x hx
    rcases List.mem_cons.mp hx with rfl | hx
    · obtain ⟨text, ds₂, -, hpure⟩ := Yields.bind_iff.mp he
      obtain ⟨rfl, -⟩ := Yields.pure_iff.mp hpure
      exact ⟨r, List.mem_cons_self .., rfl, rfl⟩
    · obtain ⟨r', hr', hrange⟩ := ih _ _ hes x hx
      exact ⟨r', List.mem_cons_of_mem _ hr', hrange⟩

/-- Code that an edit has left in place is kept exactly where no escaped region reaches it: the node `n` stands at
one path of both trees, and no region belongs to a node above it. Its text then stands between what the edits ahead
of it and the edits behind it make of the rest. -/
theorem kept_unless_escaped (p : Printer) (c : CompilationUnit) (edited n : Node) (path : List Nat) (s : Span)
    (hunit : p.units.get? s.file = some c) (hplaced : WellPlaced c.root) (hpair : edited.sameSlot c.root)
    (he : edited.at? path = some n) (hb : c.root.at? path = some n) (hs : n.span = some s)
    (htop : ∀ r ∈ find p.units edited, ∀ k, k <+: path → k ≠ path → edited.at? k ≠ some r.top) :
    ((∀ r ∈ find p.units edited, ¬r.range.overlaps s) ↔
        ∀ r ∈ find p.units edited, Escaped p.units edited r → ¬r.range.overlaps s) ∧
      ((∀ r ∈ find p.units edited, Escaped p.units edited r → r.range.file = s.file ∧ ¬r.range.overlaps s) →
        ∀ g t x, p.regenerate edited = .ok g → Edit.applyAll c.source.text g.edits = .ok t →
          c.source.text.slice? s.start s.stop = some x →
          ∃ ahead behind, t = ahead ++ x ++ behind ∧
            Edit.applyAll (c.source.text.before s.start) (g.edits.filter (Edit.endsBy s.start)) = .ok ahead ∧
            Edit.applyAll (c.source.text.after s.stop)
              ((g.edits.filter fun e => !Edit.endsBy s.start e).map (Edit.shift s.stop)) = .ok behind) := by
  have hroot : p.units.tree? s.file = some c.root := by rw [Units.tree?, hunit, Option.map_some]
  have hfound : ∀ r ∈ find p.units edited, Escaped p.units edited r ∨
      (r.range.file = s.file ∧ ¬r.range.overlaps s) := fun r hr =>
    find_clear hplaced hroot hpair he hb hs hr (htop r hr)
  refine ⟨⟨fun h r hr _ => h r hr, fun h r hr => ?_⟩, ?_⟩
  · rcases hfound r hr with hesc | ⟨-, hclear⟩
    · exact h r hr hesc
    · exact hclear
  · intro h g t x hg ht hx
    refine Edit.applyAll_around ht hx fun e he => ?_
    obtain ⟨r, hr, hstart, hstop⟩ := mem_edits_range hg e he
    obtain ⟨hfile, hclear⟩ := (hfound r hr).elim (h r hr) id
    have hne : ¬(r.range.start < s.stop ∧ s.start < r.range.stop) := fun hne =>
      hclear (Span.overlaps_iff.mpr ⟨hfile, hne⟩)
    omega

/-- The call `a.x(b)`. -/
def memberCall : CompilationUnit where
  source := { name := "A.scala", text := "a.x(b)".toList }
  root := .mk (.built 3) (some (.range "A.scala" 0 6)) (.apply
    (.mk (.built 2) (some (.range "A.scala" 0 3)) (.select
      (.mk (.built 0) (some (.range "A.scala" 0 1)) (.ident "a")) { text := "x", span := some (.range "A.scala" 2 3) }))
    [.mk (.built 1) (some (.range "A.scala" 4 5)) (.ident "b")])

/-- The call with the member `y` of another node. -/
def renamedCall (owner : Node) : Node :=
  .mk (.built 6) (some (.range "A.scala" 0 6)) (.apply
    (.mk (.built 5) (some (.range "A.scala" 0 3)) (.select owner { text := "y", span := some (.range "A.scala" 2 3) }))
    [.mk (.built 1) (some (.range "A.scala" 4 5)) (.ident "b")])

theorem renamedCall_top {owner : Node} {rs : List Region} (h : rs.all fun r => r.top.identity != .built 6) :
    ∀ r ∈ rs, ∀ k, k <+: [1] → k ≠ [1] → (renamedCall owner).at? k ≠ some r.top := by
  intro r hr k hk hne htop
  have hk : k <+: [] ++ [1] := hk
  rcases List.prefix_concat_iff.mp hk with rfl | hk
  · exact hne rfl
  · rw [List.prefix_nil.mp hk] at htop
    have hid := List.all_eq_true.mp h r hr
    rw [← Option.some.inj htop] at hid
    cases hid

set_option maxRecDepth 2000 in
/-- Another member of `a` leaves the argument alone. -/
theorem argument_kept_beside_rename :
    let edited := renamedCall (.mk (.built 0) (some (.range "A.scala" 0 1)) (.ident "a"))
    (∀ r ∈ find (plain memberCall).units edited, ¬r.range.overlaps (.range "A.scala" 4 5)) ∧
      ∃ g t ahead behind, (plain memberCall).regenerate edited = .ok g ∧
        Edit.applyAll memberCall.source.text g.edits = .ok t ∧ t = ahead ++ ['b'] ++ behind := by
  intro edited
  have hclear : (find (plain memberCall).units edited).all fun r =>
      r.range.file == "A.scala" && !r.range.overlaps (.range "A.scala" 4 5) := by cbv
  have hclear : ∀ r ∈ find (plain memberCall).units edited,
      r.range.file = "A.scala" ∧ ¬r.range.overlaps (.range "A.scala" 4 5) := by
    simpa using hclear
  obtain ⟨hiff, hkept⟩ := kept_unless_escaped (plain memberCall) memberCall edited
    (.mk (.built 1) (some (.range "A.scala" 4 5)) (.ident "b")) [1] (.range "A.scala" 4 5) rfl
    (wellPlaced_of_isWellPlaced (by cbv)) rfl rfl rfl rfl (renamedCall_top (by cbv))
  obtain ⟨g, hg, ht⟩ : ∃ g, (plain memberCall).regenerate edited = .ok g ∧
      Edit.applyAll memberCall.source.text g.edits = .ok "a.y(b)".toList :=
    rewrite?_eq_some_iff.mp (by cbv)
  obtain ⟨ahead, behind, heq, -⟩ := hkept (fun r hr _ => hclear r hr) g _ ['b'] hg ht (by cbv)
  exact ⟨hiff.mpr fun r hr _ => (hclear r hr).2, g, _, ahead, behind, hg, ht, heq⟩

set_option maxRecDepth 2000 in
/-- A new owner that claims the place of the argument is printed there as well: `c.y(c)`. -/
theorem argument_lost_to_stray :
    let edited := renamedCall (.mk (.built 4) (some (.range "A.scala" 4 5)) (.ident "c"))
    WellPlaced memberCall.root ∧ edited.sameSlot memberCall.root ∧ edited.at? [1] = memberCall.root.at? [1] ∧
      (∀ r ∈ find (plain memberCall).units edited, ∀ k, k <+: [1] → k ≠ [1] → edited.at? k ≠ some r.top) ∧
      (∃ r ∈ find (plain memberCall).units edited, r.range.overlaps (.range "A.scala" 4 5)) ∧
      (plain memberCall).rewrite? memberCall edited = some "c.y(c)".toList := by
  intro edited
  have hover : (find (plain memberCall).units edited).any fun r => r.range.overlaps (.range "A.scala" 4 5) := by
    cbv
  exact ⟨wellPlaced_of_isWellPlaced (by cbv), rfl, rfl, renamedCall_top (by cbv), List.any_eq_true.mp hover, by cbv⟩

end Printer

end Reprint
