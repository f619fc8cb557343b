import Reprint.Print.Reuse
import Reprint.Proofs.Widest
/-!
How regions are found. Discovery pairs an edited node with its counterpart and goes on below it unless the two
are one node (`Compared`). It stays silent exactly when every pair it compares is one node or agrees in content
and in the slots of its children. Where it does find a region, `search_split` says which step of it did. Printing asks
again, of each node of a region, whether it is pristine (`isPristine_iff`).
-/

namespace Reprint

theorem flatMap_attach_eraseIdx {α β : Type} (l : List α) (f : α → List β) (i : Nat) :
    ((l.attach.eraseIdx i).flatMap fun x => f x.1) = (l.eraseIdx i).flatMap f := by
  have hval : (l.attach.eraseIdx i).map Subtype.val = l.eraseIdx i := by
    rw [List.eraseIdx_eq_take_drop_succ, List.eraseIdx_eq_take_drop_succ, List.map_append, List.map_take,
      List.map_drop, List.attach_map_subtype_val]
  rw [← hval, List.flatMap_map]

theorem guard_eq_some {p : Prop} [Decidable p] {x : Unit} (h : (guard p : Option Unit) = some x) : p := by
  unfold guard at h
  split at h
  · assumption
  · cases h

namespace Node

/-! ### Children in their slots -/

/-- The same content, and children in the same slots. -/
def Agrees (n base : Node) : Prop := n.contentDiffers base = false ∧ n.childrenChanged base = false

theorem childrenChanged_eq_false_iff {n base : Node} : n.childrenChanged base = false ↔
    n.children.length = base.children.length ∧
      ∀ (i : Nat) (a b : Node), n.children[i]? = some a → base.children[i]? = some b → a.sameSlot b := by
  simp only [childrenChanged, Bool.or_eq_false_iff, bne_eq_false_iff_eq, List.any_eq_false]
  refine and_congr_right fun _ => ⟨fun h i a b ha hb => ?_, fun h x hx => ?_⟩
  · have := h (a, b) (List.mem_of_getElem? (List.getElem?_zip_eq_some.mpr ⟨ha, hb⟩))
    simpa using this
  · obtain ⟨i, hi⟩ := List.getElem?_of_mem hx
    have hi := List.getElem?_zip_eq_some.mp hi
    simpa using h i x.1 x.2 hi.1 hi.2

theorem childrenChanged_of_length_ne {n base : Node} (h : n.children.length ≠ base.children.length) :
    n.childrenChanged base = true := by
  rw [← Bool.not_eq_false]
  exact fun hsame => h (childrenChanged_eq_false_iff.mp hsame).1

theorem mem_differing_iff {n base : Node} {i : Nat} : i ∈ n.differing base ↔
    ∃ a b, n.children[i]? = some a ∧ base.children[i]? = some b ∧ ¬a.sameSlot b := by
  simp only [differing, List.mem_filterMap, Prod.exists]
  constructor
  · rintro ⟨a, b, j, hj, hij⟩
    split at hij
    · cases hij
    · cases hij
      have hj := List.getElem?_zip_eq_some.mp (List.mem_zipIdx_iff_getElem?.mp hj)
      exact ⟨a, b, hj.1, hj.2, ‹_›⟩
  · rintro ⟨a, b, ha, hb, hab⟩
    exact ⟨a, b, i, List.mem_zipIdx_iff_getElem?.mpr (List.getElem?_zip_eq_some.mpr ⟨ha, hb⟩), by simp [hab]⟩

/-- Where one statement of a sequence was replaced, all others are in their slots. -/
theorem replaced?_inv {n base : Node} {i : Nat} {new : Node} {place : Span}
    (h : n.replaced? base = some (i, new, place)) :
    n.children.length = base.children.length ∧ n.children[i]? = some new ∧ new.span = none ∧
      (∃ old, base.children[i]? = some old ∧ old.span = some place) ∧
      ∀ (j : Nat) (a b : Node), j ≠ i → n.children[j]? = some a → base.children[j]? = some b → a.sameSlot b := by
  unfold replaced? at h
  obtain ⟨_, hguard, h⟩ := Option.bind_eq_some_iff.mp h
  have hlen : n.children.length = base.children.length := by
    have hguard := guard_eq_some hguard
    simp only [Bool.and_eq_true, beq_iff_eq] at hguard
    exact hguard.2
  split at h
  · rename_i k hk
    obtain ⟨new', hnew, h⟩ := Option.bind_eq_some_iff.mp h
    obtain ⟨_, hnone, h⟩ := Option.bind_eq_some_iff.mp h
    obtain ⟨old, hold, h⟩ := Option.bind_eq_some_iff.mp h
    obtain ⟨place', hplace, h⟩ := Option.bind_eq_some_iff.mp h
    cases h
    refine ⟨hlen, hnew, by simpa using guard_eq_some hnone, ⟨old, hold, hplace⟩, ?_⟩
    intro j a b hj ha hb
    by_cases hab : a.sameSlot b
    · exact hab
    · have : j ∈ n.differing base := mem_differing_iff.mpr ⟨a, b, ha, hb, hab⟩
      rw [hk, List.mem_singleton] at this
      exact absurd this hj
  · cases h

end Node

/-! ### Sets of nodes -/

namespace NodeSet

/-- A set that holds each node of a list once, by its first occurrence. -/
structure Collects (s : NodeSet) (l : List Node) : Prop where
  apart : s.nodes.Pairwise fun a b => a.same b = false
  sound : ∀ n ∈ s.nodes, n ∈ l
  complete : ∀ n ∈ l, s.contains n = true
  first : s.nodes.head? = l.head?

theorem contains_iff {s : NodeSet} {n : Node} : s.contains n ↔ ∃ m ∈ s.nodes, m.same n := List.any_eq_true

theorem Collects.insert {s : NodeSet} {l : List Node} (h : Collects s l) (n : Node) : Collects (s.insert n) (l ++ [n]) := by
  by_cases hn : s.contains n = true
  · have hs : s.insert n = s := if_pos hn
    have hl : l ≠ [] := by
      rintro rfl
      obtain ⟨m, hm, -⟩ := contains_iff.mp hn
      exact List.not_mem_nil (h.sound m hm)
    rw [hs]
    refine ⟨h.apart, fun m hm => List.mem_append_left _ (h.sound m hm), fun m hm => ?_, ?_⟩
    · rcases List.mem_append.mp hm with hm | hm
      · exact h.complete m hm
      · rw [List.mem_singleton.mp hm]
        exact hn
    · obtain ⟨a, l, rfl⟩ := List.exists_cons_of_ne_nil hl
      exact h.first
  · have hs : (s.insert n).nodes = s.nodes ++ [n] := by rw [NodeSet.insert, if_neg hn]
    have hnew : ∀ m ∈ s.nodes, m.same n = false := fun m hm =>
      Bool.eq_false_iff.mpr fun hsame => hn (contains_iff.mpr ⟨m, hm, hsame⟩)
    refine ⟨?_, fun m hm => ?_, fun m hm => ?_, ?_⟩
    · rw [hs, List.pairwise_append]
      refine ⟨h.apart, List.pairwise_singleton .., fun a ha b hb => ?_⟩
      rw [List.mem_singleton.mp hb]
      exact hnew a ha
    · rw [hs] at hm
      rcases List.mem_append.mp hm with hm | hm
      · exact List.mem_append_left _ (h.sound m hm)
      · exact List.mem_append_right _ hm
    · rw [contains_iff, hs]
      rcases List.mem_append.mp hm with hm | hm
      · obtain ⟨k, hk, hsame⟩ := contains_iff.mp (h.complete m hm)
        exact ⟨k, List.mem_append_left _ hk, hsame⟩
      · exact ⟨m, List.mem_append_right _ hm, m.same_refl⟩
    · rw [hs, List.head?_append, List.head?_append, h.first]

theorem collects_ofList (l : List Node) : Collects (ofList l) l := by
  have run : ∀ (k l : List Node) (s : NodeSet), Collects s l → Collects (k.foldl insert s) (l ++ k) := by
    intro k
    induction k with
    | nil => exact fun l s h => by rwa [List.append_nil]
    | cons n k ih =>
      intro l s h
      have := ih (l ++ [n]) (s.insert n) (h.insert n)
      rwa [List.append_assoc] at this
  exact run l [] {} ⟨.nil, nofun, nofun, rfl⟩

theorem contains_ofList {l : List Node} {n : Node} (h : n ∈ l) : (ofList l).contains n = true :=
  (collects_ofList l).complete n h

end NodeSet

namespace Node

/-! ### Pristine nodes -/

/-- The children are compared in pairs. -/
theorem isPristine_eq (changed : NodeSet) (n base : Node) : n.isPristine changed base =
    (n.same base || (!changed.contains n && n.sameShape base && n.children.length == base.children.length &&
      (n.children.zip base.children).all fun x => x.1.sameSlot x.2 && x.1.isPristine changed x.2)) := by
  have hzip : n.children.zip base.children = (n.children.attach.zip base.children).map (Prod.map Subtype.val id) := by
    rw [← List.zip_map, List.attach_map_subtype_val, List.map_id]
  rw [isPristine, hzip, List.all_map]
  rfl

theorem isPristine_iff {changed : NodeSet} {n base : Node} : n.isPristine changed base = true ↔
    n.same base ∨ (changed.contains n = false ∧ n.sameShape base ∧ n.childrenChanged base = false ∧
      ∀ (i : Nat) (c d : Node), n.children[i]? = some c → base.children[i]? = some d →
        c.isPristine changed d = true) := by
  rw [isPristine_eq, childrenChanged_eq_false_iff]
  simp only [Bool.or_eq_true, Bool.and_eq_true, Bool.not_eq_true', beq_iff_eq, List.all_eq_true, and_assoc]
  refine or_congr_right (and_congr_right fun _ => and_congr_right fun _ => and_congr_right fun _ => ?_)
  constructor
  · intro h
    have hpair : ∀ (i : Nat) (c d : Node), n.children[i]? = some c → base.children[i]? = some d →
        c.sameSlot d ∧ c.isPristine changed d := fun i c d hc hd =>
      h (c, d) (List.mem_of_getElem? (List.getElem?_zip_eq_some.mpr ⟨hc, hd⟩))
    exact ⟨fun i c d hc hd => (hpair i c d hc hd).1, fun i c d hc hd => (hpair i c d hc hd).2⟩
  · rintro ⟨hslots, hpristine⟩ x hx
    obtain ⟨i, hi⟩ := List.getElem?_of_mem hx
    obtain ⟨hc, hd⟩ := List.getElem?_zip_eq_some.mp hi
    exact ⟨hslots i _ _ hc hd, hpristine i _ _ hc hd⟩

theorem isPristine_self (changed : NodeSet) (n : Node) : n.isPristine changed n = true :=
  isPristine_iff.mpr (.inl n.same_refl)

theorem isPristine_of_contains {changed : NodeSet} {n base : Node} (hother : n.same base = false)
    (h : changed.contains n = true) : n.isPristine changed base = false := by
  refine Bool.eq_false_iff.mpr fun hpristine => ?_
  rcases isPristine_iff.mp hpristine with hsame | ⟨hn, -⟩
  · exact Bool.eq_false_iff.mp hother hsame
  · exact Bool.eq_false_iff.mp hn h

end Node

namespace Region
open Node

/-! ### What one step of the search finds -/

theorem search_eq (u : Units) (n : Node) : search u n =
    match u.counterpart? n with
    | none => []
    | some base =>
      if n.same base then []
      else
        match base.span with
        | none => []
        | some range =>
          if n.contentDiffers base then of u n range :: n.children.flatMap (search u)
          else if n.childrenChanged base then
            match n.replaced? base with
            | some (i, new, place) => of u new place :: (n.children.eraseIdx i).flatMap (search u)
            | none => [of u n range]
          else n.children.flatMap (search u) := by
  have unfolded := search.eq_def u n
  simp only [flatMap_attach n.children (search u), flatMap_attach_eraseIdx n.children (search u)] at unfolded
  exact unfolded

theorem search_eq_nil_iff {u : Units} {n : Node} : search u n = [] ↔
    ∀ base, u.counterpart? n = some base →
      n.same base ∨ (n.Agrees base ∧ ∀ c ∈ n.children, search u c = []) := by
  rw [search_eq]
  cases hcp : u.counterpart? n with
  | none => simp
  | some base =>
    obtain ⟨s, hs⟩ := Units.counterpart?_span hcp
    simp only [Option.some.injEq, forall_eq', hs, Agrees]
    by_cases hsame : n.same base
    · simp [hsame]
    · cases hcd : n.contentDiffers base
      · cases hcc : n.childrenChanged base
        · simp [hsame, List.flatMap_eq_nil_iff]
        · cases hr : n.replaced? base <;> simp [hsame]
      · simp [hsame]

theorem search_below {u : Units} {l : List Node} {r : Region} {pre post : List Region}
    (h : l.flatMap (search u) = pre ++ r :: post) :
    ∃ c ∈ l, ∃ pre' post', search u c = pre' ++ r :: post' ∧ ∀ x ∈ pre', x ∈ pre := by
  obtain ⟨l₁, c, l₂, p, q, rfl, hc, rfl, -⟩ := flatMap_split h
  exact ⟨c, by simp, p, q, hc, fun x hx => List.mem_append_right _ hx⟩

/-- The steps that lead to a region: an altered node (its own region, or one found below it after its own), a
node with other children, one replaced statement of a sequence, or a step further down in the same slots. -/
theorem search_split {u : Units} {n : Node} {r : Region} {pre post : List Region}
    (h : search u n = pre ++ r :: post) :
    ∃ base range, u.counterpart? n = some base ∧ n.same base = false ∧ base.span = some range ∧
      ((n.contentDiffers base = true ∧
          (r = of u n range ∨ (of u n range ∈ pre ∧ ∃ c ∈ n.children, r ∈ search u c))) ∨
        (n.contentDiffers base = false ∧ n.childrenChanged base = true ∧ r = of u n range) ∨
        (n.contentDiffers base = false ∧ ∃ i new place, n.replaced? base = some (i, new, place) ∧
          r = of u new place) ∨
        (n.contentDiffers base = false ∧ ∃ (j : Nat) (c d : Node), n.children[j]? = some c ∧
          base.children[j]? = some d ∧ c.sameSlot d ∧
          ∃ pre' post', search u c = pre' ++ r :: post' ∧ ∀ x ∈ pre', x ∈ pre)) := by
  rw [search_eq] at h
  cases hcp : u.counterpart? n with
  | none => simp [hcp] at h
  | some base =>
    obtain ⟨range, hs⟩ := Units.counterpart?_span hcp
    simp only [hcp, hs] at h
    refine ⟨base, range, rfl, ?_⟩
    by_cases hsame : n.same base = true
    · simp [hsame] at h
    · refine ⟨by simpa using hsame, hs, ?_⟩
      -- The base child in the place of a child, when there are as many.
      have pair : ∀ {j : Nat} {c : Node}, n.children.length = base.children.length → n.children[j]? = some c →
          ∃ d, base.children[j]? = some d := by
        intro j c hlen hj
        have := (List.getElem?_eq_some_iff.mp hj).1
        exact ⟨_, List.getElem?_eq_getElem (hlen ▸ this)⟩
      rw [if_neg hsame] at h
      split at h
      · refine .inl ⟨‹_›, ?_⟩
        cases pre with
        | nil => exact .inl (List.cons.inj h).1.symm
        | cons x pre =>
          obtain ⟨rfl, hrest⟩ := List.cons.inj h
          obtain ⟨c, hc, p, q, hcs, -⟩ := search_below hrest
          exact .inr ⟨List.mem_cons_self .., c, hc, by rw [hcs]; simp⟩
      · have hcd : n.contentDiffers base = false := Bool.eq_false_iff.mpr ‹_›
        refine .inr ?_
        split at h
        · cases hr : n.replaced? base with
          | none =>
            rw [hr] at h
            refine .inl ⟨hcd, ‹_›, ?_⟩
            cases pre with
            | nil => exact (List.cons.inj h).1.symm
            | cons x pre => simp at h
          | some x =>
            obtain ⟨i, new, place⟩ := x
            rw [hr] at h
            obtain ⟨hlen, -, -, -, hslots⟩ := replaced?_inv hr
            refine .inr ?_
            cases pre with
            | nil => exact .inl ⟨hcd, i, new, place, rfl, (List.cons.inj h).1.symm⟩
            | cons x pre =>
              obtain ⟨rfl, hrest⟩ := List.cons.inj h
              obtain ⟨c, hc, p, q, hcs, hp⟩ := search_below hrest
              obtain ⟨j, hji, hj⟩ := List.mem_eraseIdx_iff_getElem?.mp hc
              obtain ⟨d, hd⟩ := pair hlen hj
              exact .inr ⟨hcd, j, c, d, hj, hd, hslots j c d hji hj hd, p, q, hcs,
                fun x hx => List.mem_cons_of_mem _ (hp x hx)⟩
        · obtain ⟨hlen, hslots⟩ := childrenChanged_eq_false_iff.mp (Bool.eq_false_iff.mpr ‹_›)
          obtain ⟨c, hc, p, q, hcs, hp⟩ := search_below h
          obtain ⟨j, hj⟩ := List.getElem?_of_mem hc
          obtain ⟨d, hd⟩ := pair hlen hj
          exact .inr (.inr ⟨hcd, j, c, d, hj, hd, hslots j c d hj hd, p, q, hcs, hp⟩)

/-! ### Silence -/

/-- The pairs that discovery compares: the root of the edited tree and its counterpart, and then the children
with their counterparts, below every pair that is not one node. -/
inductive Compared (u : Units) (root : Node) : Node → Node → Prop where
  | root {base : Node} : u.counterpart? root = some base → Compared u root root base
  | child {n base c d : Node} : Compared u root n base → n.same base = false → c ∈ n.children →
      u.counterpart? c = some d → Compared u root c d

theorem search_nil_of_compared {u : Units} {root n base : Node} (h : Compared u root n base)
    (hnil : search u root = []) : search u n = [] := by
  induction h with
  | root _ => exact hnil
  | child _ hne hc _ ih =>
    rename_i n base c d hn _
    have hcp : u.counterpart? n = some base := by cases hn <;> assumption
    rcases search_eq_nil_iff.mp ih base hcp with h | ⟨-, h⟩
    · rw [hne] at h
      cases h
    · exact h c hc

theorem compared_counterpart {u : Units} {root n base : Node} (h : Compared u root n base) :
    u.counterpart? n = some base := by
  cases h <;> assumption

/-- Discovery is silent exactly when all that it compares is one node or agrees. -/
theorem search_eq_nil_iff_compared {u : Units} {root : Node} : search u root = [] ↔
    ∀ n base, Compared u root n base → n.same base ∨ n.Agrees base := by
  constructor
  · intro hnil n base h
    rcases search_eq_nil_iff.mp (search_nil_of_compared h hnil) base (compared_counterpart h) with h | ⟨h, -⟩
    · exact .inl h
    · exact .inr h
  · intro hall
    have key : ∀ n, (∀ base, u.counterpart? n = some base → Compared u root n base) → search u n = [] := by
      intro n
      induction n using children_induction with
      | step n ih =>
        intro hn
        refine search_eq_nil_iff.mpr fun base hcp => ?_
        by_cases hsame : n.same base = true
        · exact .inl hsame
        · refine .inr ⟨(hall n base (hn base hcp)).resolve_left hsame, fun c hc => ?_⟩
          exact ih c hc fun d hd => .child (hn base hcp) (by simpa using hsame) hc hd
    exact key root fun base hcp => .root hcp

theorem Compared.agrees {u : Units} {root n base : Node} (h : Compared u root n base) (hnil : search u root = [])
    (hne : n.same base = false) : n.Agrees base := by
  rcases search_eq_nil_iff_compared.mp hnil n base h with hsame | hagree
  · rw [hne] at hsame
    cases hsame
  · exact hagree

theorem find_eq_nil_iff {u : Units} {root : Node} : find u root = [] ↔ search u root = [] := widest_eq_nil_iff

end Region

end Reprint
