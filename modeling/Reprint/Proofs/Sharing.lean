import Mathlib
import Reprint.Proofs.Positions
/-!
Which nodes an edited tree shares with the base tree. Every node that a document makes has a number of its own, and the
names, modifiers and super calls derived from a node have its number (`Identity.serial`). The numbers of an edited tree
begin where those of the base tree end, so whether an instance is from the base tree is a matter of its number. Main
statement: an occurrence in the edited tree is a base instance exactly if it or a node above it was written as a
reference, and references are found among the ids of the base tree only.
-/

namespace Reprint

/-- The number of a node, or of the node that it was derived from. -/
def Identity.serial : Identity → Nat
  | built n => n
  | part owner _ => owner.serial

namespace Node

theorem identity_of_mem_nameTokens {owner : Identity} {part : Part} {name : Name} {t : Node}
    (h : t ∈ nameTokens owner part name) : t.identity = .part owner part := by
  unfold nameTokens at h
  split at h
  · rw [List.mem_singleton.mp h]
    rfl
  · cases h

theorem identity_of_mem_modifierTokens {owner : Identity} {mods : List ModifierToken} {t : Node}
    (h : t ∈ modifierTokens owner mods) : ∃ i, t.identity = .part owner (.modifier i) := by
  simp only [modifierTokens, List.mem_filterMap, Option.map_eq_some_iff] at h
  obtain ⟨⟨m, i⟩, -, s, -, rfl⟩ := h
  exact ⟨i, rfl⟩

/-- Tokens have the number of their owner. -/
theorem serial_of_mem_tokens {n t : Node} (h : t ∈ n.leading ++ n.trailing) : t.identity.serial = n.identity.serial := by
  have hname : ∀ {part name}, t ∈ nameTokens n.identity part name → t.identity.serial = n.identity.serial := by
    intro part name ht
    rw [identity_of_mem_nameTokens ht]
    rfl
  have hmod : ∀ {mods}, t ∈ modifierTokens n.identity mods → t.identity.serial = n.identity.serial := by
    intro mods ht
    obtain ⟨i, hi⟩ := identity_of_mem_modifierTokens ht
    rw [hi]
    rfl
  obtain ⟨owner, s, k⟩ := n
  cases k <;> simp only [leading, trailing, List.append_nil, List.nil_append, List.mem_append, List.mem_flatMap,
    List.not_mem_nil, Option.mem_toList] at h
  case thisRef =>
    obtain ⟨name, -, h⟩ := h
    exact hname h
  case importSelector =>
    rcases h with h | ⟨name, -, h⟩
    · exact hname h
    · exact hname h
  case select | bind | selfType => exact hname h
  all_goals exact h.elim hmod hname

theorem IsToken.children {n : Node} (h : IsToken n) : n.children = [] := by
  have htag : n.tag ≠ .template := by
    intro htag
    obtain ⟨i, s, k⟩ := n
    cases k with
    | template => cases h.grouping
    | _ => cases htag
  rw [children_eq htag, h.leading, h.slots, h.trailing]
  rfl

/-! ### Trees by their numbers -/

/-- A tree with numbers below a bound. -/
inductive Below (bound : Nat) : Node → Prop where
  | intro {n : Node} : n.identity.serial < bound → (∀ c ∈ n.kind.slots, Below bound c) → Below bound n

theorem Below.serial_lt {bound : Nat} {n : Node} (h : Below bound n) : n.identity.serial < bound := by
  cases h with
  | intro hlt _ => exact hlt

theorem Below.child {bound : Nat} {n c : Node} (h : Below bound n) (hc : c ∈ n.children) : Below bound c := by
  cases h with
  | intro hlt hslots =>
    rcases child_cases hc with hc | hc | ⟨first, rest, args, self, body, hkind, rfl⟩
    · exact hslots c hc
    · refine .intro (serial_of_mem_tokens hc ▸ hlt) ?_
      rw [(isToken_of_mem_tokens hc).slots]
      exact nofun
    · rw [hkind] at hslots
      refine .intro hlt fun c hc => ?_
      rcases List.mem_cons.mp hc with rfl | hc
      · exact hslots _ (by simp [Kind.slots])
      · exact hslots _ (by simp [Kind.slots, hc])

/-- The bound holds for everything below a node, derived nodes included. -/
theorem Below.serial_lt_of_mem {bound : Nat} {n : Node} (h : Below bound n) :
    ∀ m ∈ n.preorder, m.identity.serial < bound := by
  induction n using children_induction with
  | step n ih =>
    intro m hm
    rcases mem_preorder_iff.mp hm with rfl | ⟨c, hc, hm⟩
    · exact h.serial_lt
    · exact ih c hc (h.child hc) m hm

theorem mem_preorder_of_at?_append {root c m : Node} {p q : List Nat} (hm : root.at? p = some m)
    (hc : root.at? (p ++ q) = some c) : c ∈ m.preorder := by
  rw [at?_append, hm] at hc
  exact mem_preorder_of_at? hc

end Node

namespace Document

/-! ### What occurrences were written as -/

/-- What an occurrence in a tree was written as: the root, something in a slot of a node that was written out, or
something in a slot that hangs below its super call. -/
inductive Wrote (d : NodeDoc) (root : Node) : List Nat → NodeDoc → Prop where
  | root : Wrote d root [] d
  | slot {path : List Nat} {f : Fields NodeDoc} {m c : Node} {i : Nat} {e : NodeDoc} : Wrote d root path (.node f) →
      root.at? path = some m → m.children[i]? = some c → (e, c) ∈ f.beside m → Wrote d root (path ++ [i]) e
  | call {path : List Nat} {f : Fields NodeDoc} {m s c : Node} {i j : Nat} {e : NodeDoc} : Wrote d root path (.node f) →
      root.at? path = some m → m.children[i]? = some s → s.tag = .superCall → s.children[j]? = some c →
      (e, c) ∈ f.beside m → Wrote d root (path ++ [i] ++ [j]) e

/-- The instances that a base tree has, with all that is derived from them. -/
def Owns (b : Document) (base : LoadedTree) (c : Node) : Prop :=
  ∃ f m x, (.node f, m) ∈ b.root.pairs base.root ∧ x ∈ m.preorder ∧ c.same x

theorem Wrote.mem_pairs {d : NodeDoc} {root : Node} {path : List Nat} {e : NodeDoc} (h : Wrote d root path e) :
    ∃ c, root.at? path = some c ∧ (e, c) ∈ d.pairs root := by
  induction h with
  | root => exact ⟨root, rfl, d.mem_pairs_self root⟩
  | @slot path f m c i e _ hm hc he ih =>
    obtain ⟨m', hm', hpair⟩ := ih
    cases hm.symm.trans hm'
    exact ⟨c, Node.at?_snoc.mpr ⟨m, hm, hc⟩,
      NodeDoc.mem_pairs_trans hpair (NodeDoc.mem_pairs_node.mpr (.inr ⟨_, he, e.mem_pairs_self c⟩))⟩
  | @call path f m s c i j e _ hm hs _ hc he ih =>
    obtain ⟨m', hm', hpair⟩ := ih
    cases hm.symm.trans hm'
    exact ⟨c, Node.at?_snoc.mpr ⟨s, Node.at?_snoc.mpr ⟨m, hm, hs⟩, hc⟩,
      NodeDoc.mem_pairs_trans hpair (NodeDoc.mem_pairs_node.mpr (.inr ⟨_, he, e.mem_pairs_self c⟩))⟩

/-! ### Numbers that documents give -/

section Numbers
variable {context : Context} {p q : Progress} {l : List (NodeDoc × Node)}

/-- Nodes that are built are numbered from one progress to the next. -/
theorem Erected.serial {f : Fields NodeDoc} {m : Node} (h : Erected context p q l) (hm : (.node f, m) ∈ l) :
    p.next ≤ m.identity.serial ∧ m.identity.serial < q.next := by
  have hbuilt : m.identity ∈ builtOf l := List.mem_map.mpr ⟨_, List.mem_filter.mpr ⟨hm, rfl⟩, rfl⟩
  rw [h.built, List.mem_map] at hbuilt
  obtain ⟨k, hk, hm⟩ := hbuilt
  rw [← hm, h.next]
  exact List.mem_range'_1.mp hk

end Numbers

/-! ### Occurrences in a tree -/

section Occurrences
variable {source : Source} {shared : List (String × Node)} {d : NodeDoc} {root : Node}

/-- A node that is derived from one that was written out. -/
inductive Derived (d : NodeDoc) (root : Node) : List Nat → Node → Prop where
  | token {path : List Nat} {f : Fields NodeDoc} {m t : Node} {i : Nat} : Wrote d root path (.node f) →
      root.at? path = some m → t ∈ m.leading ++ m.trailing → Derived d root (path ++ [i]) t
  | call {path : List Nat} {f : Fields NodeDoc} {m first : Node} {rest args body : List Node}
    {self : Option Node} {i : Nat} :
      Wrote d root path (.node f) → root.at? path = some m → m.kind = .template (first :: rest) args self body →
      m.children[i]? = some (.superCall m.identity first args) →
      Derived d root (path ++ [i]) (.superCall m.identity first args)

theorem Derived.serial {path : List Nat} {c : Node} (h : Derived d root path c) :
    ∃ f m, (.node f, m) ∈ d.pairs root ∧ c.identity.serial = m.identity.serial := by
  cases h with
  | @token path f m t i hwrote hm ht =>
    obtain ⟨m', hm', hpair⟩ := hwrote.mem_pairs
    cases hm.symm.trans hm'
    exact ⟨f, m, hpair, Node.serial_of_mem_tokens ht⟩
  | @call path f m first rest args body self i hwrote hm hkind hcall =>
    obtain ⟨m', hm', hpair⟩ := hwrote.mem_pairs
    cases hm.symm.trans hm'
    exact ⟨f, m, hpair, rfl⟩

/-- Where an occurrence is from: it is at or below a reference, or it was written out, or it is derived from a node that
was. -/
inductive Stems (d : NodeDoc) (root : Node) (path : List Nat) (c : Node) : Prop where
  | referred {q : List Nat} {t : String} : q <+: path → Wrote d root q (.ref t) → Stems d root path c
  | written {f : Fields NodeDoc} : Wrote d root path (.node f) → Stems d root path c
  | derived : Derived d root path c → Stems d root path c

theorem Wrote.stems {path : List Nat} {e : NodeDoc} (h : Wrote d root path e) (c : Node) : Stems d root path c := by
  cases e with
  | ref t => exact .referred (List.prefix_refl _) h
  | node f => exact .written h

theorem Wrote.depicts (hdescribes : ∀ x ∈ d.pairs root, x.1.Describes source shared x.2) {path : List Nat}
    {f : Fields NodeDoc} (h : Wrote d root path (.node f)) {m : Node} (hm : root.at? path = some m) :
    f.Depicts source m.kind := by
  obtain ⟨m', hm', hpair⟩ := h.mem_pairs
  cases hm.symm.trans hm'
  exact (hdescribes _ hpair).2.2.2

/-- Every occurrence can be traced. One step down the tree leads from a node that was written out to what stands in its
slots, to a token or to a super call, and from there to its slots again. -/
theorem stems (hdescribes : ∀ x ∈ d.pairs root, x.1.Describes source shared x.2) {path : List Nat} {c : Node}
    (hc : root.at? path = some c) : Stems d root path c := by
  induction path using List.reverseRecOn generalizing c with
  | nil => exact Wrote.root.stems c
  | append_singleton path i ih =>
    obtain ⟨a, ha, hc⟩ := Node.at?_snoc.mp hc
    have hchild := List.mem_of_getElem? hc
    cases ih ha with
    | referred hq hwrote => exact .referred (hq.trans (List.prefix_append ..)) hwrote
    | written hwrote =>
      rcases Node.child_cases hchild with hslot | htoken | ⟨first, rest, args, self, body, hkind, rfl⟩
      · obtain ⟨e, he⟩ := (hwrote.depicts hdescribes ha).exists_beside hslot
        exact (Wrote.slot hwrote ha hc he).stems c
      · exact .derived (.token hwrote ha htoken)
      · exact .derived (.call hwrote ha hkind hc)
    | derived hderived =>
      cases hderived with
      | token hwrote hm ht =>
        rw [(Node.isToken_of_mem_tokens ht).children] at hchild
        cases hchild
      | @call path f m first rest args body self j hwrote hm hkind hcall =>
        -- What hangs below a super call stands in slots of the template.
        have hslot : c ∈ m.kind.slots := by
          rw [hkind]
          rcases List.mem_cons.mp hchild with rfl | hchild
          · simp [Kind.slots]
          · simp [Kind.slots, hchild]
        obtain ⟨e, he⟩ := (hwrote.depicts hdescribes hm).exists_beside hslot
        exact (Wrote.call hwrote hm hcall rfl hc he).stems c

end Occurrences

/-! ### Base trees -/

/-- What hangs below a base node is numbered below the first free number. -/
theorem below_of_describes {source : Source} {d : NodeDoc} {n : Node} {bound : Nat}
    (hdescribes : ∀ x ∈ d.pairs n, x.1.Describes source [] x.2)
    (hserial : ∀ f m, (.node f, m) ∈ d.pairs n → m.identity.serial < bound) : n.Below bound := by
  induction n using Node.slots_induction generalizing d with
  | step n ih =>
    have hself := hdescribes _ (d.mem_pairs_self n)
    cases d with
    | ref t => cases hself
    | node f =>
      refine .intro (hserial f n (NodeDoc.mem_pairs_self _ n)) fun c hc => ?_
      obtain ⟨e, he⟩ := hself.2.2.2.exists_beside hc
      have hsub : ∀ x ∈ e.pairs c, x ∈ (NodeDoc.node f).pairs n :=
        fun x hx => NodeDoc.mem_pairs_node.mpr (.inr ⟨_, he, hx⟩)
      exact ih c hc (fun x hx => hdescribes x (hsub x hx)) fun g m hm => hserial g m (hsub _ hm)

theorem Owns.serial_lt {source : Source} {b : Document} {base : LoadedTree} {c : Node} {bound : Nat}
    (hdescribes : ∀ x ∈ b.root.pairs base.root, x.1.Describes source [] x.2)
    (hserial : ∀ f m, (.node f, m) ∈ b.root.pairs base.root → m.identity.serial < bound) (h : b.Owns base c) :
    c.identity.serial < bound := by
  obtain ⟨f, m, x, hm, hx, hsame⟩ := h
  have hbelow : m.Below bound := below_of_describes (fun y hy => hdescribes y (NodeDoc.mem_pairs_trans hm hy))
    fun g n hn => hserial g n (NodeDoc.mem_pairs_trans hm hn)
  rw [beq_iff_eq.mp hsame]
  exact hbelow.serial_lt_of_mem x hx

end Document

namespace LoadedTree
open Document

/-- An occurrence in an edited tree is an instance of the base tree exactly if it or a node above it was written as a
reference. What a reference stands for is the base node with that id, whatever ids the edited document declares. -/
theorem shared_iff_referred (source source' : Source) (text text' : Text) (base edited : LoadedTree)
    (hbase : ofBase source text = .ok base) (hedited : ofEdited source' text' base = .ok edited) :
    ∃ b d, read? text = some b ∧ read? text' = some d ∧
      (∀ path c, edited.root.at? path = some c →
        (b.Owns base c ↔ ∃ q t, q <+: path ∧ Wrote d.root edited.root q (.ref t))) ∧
      ∀ t c, (.ref t, c) ∈ d.root.pairs edited.root →
        base.byId? t = some c ∧ (∃ f, (.node f, c) ∈ b.root.pairs base.root ∧ f.id = some t) ∧
          ∀ m, edited.byId? t = some m → m.same c = false := by
  obtain ⟨b, hb, hbuild⟩ := ofText_eq_ok_iff.mp hbase
  obtain ⟨d, hd, hbuild'⟩ := ofText_eq_ok_iff.mp hedited
  have hfaithful := build_faithful (read_narrow hb) hbuild
  have hfaithful' := build_faithful (read_narrow hd) hbuild'
  have hold : ∀ f m, (.node f, m) ∈ b.root.pairs base.root → m.identity.serial < base.next :=
    fun f m hm => ((build_erected (read_narrow hb) hbuild).1.serial hm).2
  have hnew : ∀ f m, (.node f, m) ∈ d.root.pairs edited.root → base.next ≤ m.identity.serial :=
    fun f m hm => ((build_erected (read_narrow hd) hbuild').1.serial hm).1
  have howns : ∀ {c}, b.Owns base c → c.identity.serial < base.next := Owns.serial_lt hfaithful.describes hold
  have href : ∀ t c, (.ref t, c) ∈ d.root.pairs edited.root → base.byId? t = some c := fun t c => hfaithful'.describes _
  refine ⟨b, d, hb, hd, fun path c hc => ⟨fun h => ?_, ?_⟩, fun t c hc => ?_⟩
  · -- A base instance has a number that no node has which the edited document writes out.
    have hlt := howns h
    cases stems hfaithful'.describes hc with
    | referred hq hwrote => exact ⟨_, _, hq, hwrote⟩
    | @written f hwrote =>
      obtain ⟨m, hm, hpair⟩ := hwrote.mem_pairs
      cases hc.symm.trans hm
      exact absurd (hnew f c hpair) (Nat.not_le.mpr hlt)
    | derived hderived =>
      obtain ⟨f, m, hpair, hserial⟩ := hderived.serial
      exact absurd (hserial ▸ hnew f m hpair) (Nat.not_le.mpr hlt)
  · rintro ⟨q, t, ⟨r, rfl⟩, hwrote⟩
    obtain ⟨m, hm, hpair⟩ := hwrote.mem_pairs
    obtain ⟨f, hf, -⟩ := (hfaithful.byId t m).mp (href t m hpair)
    exact ⟨f, m, c, hf, Node.mem_preorder_of_at?_append hm hc, beq_self_eq_true _⟩
  · obtain ⟨f, hf, hid⟩ := (hfaithful.byId t c).mp (href t c hc)
    refine ⟨href t c hc, ⟨f, hf, hid⟩, fun m hm => ?_⟩
    obtain ⟨g, hg, -⟩ := (hfaithful'.byId t m).mp hm
    refine beq_eq_false_iff_ne.mpr fun hsame => ?_
    exact absurd (hsame ▸ hnew g m hg) (Nat.not_le.mpr (hold f c hf))

/-- A selection and a call of it by reference are loaded, and the statement holds of them. The argument of the call
declares the id of the selection anew. -/
theorem shared_selection : ofBase selectSource selectText = .ok selectTree ∧
    ofEdited selectSource callText selectTree = .ok callTree ∧
    ∃ b d, read? selectText = some b ∧ read? callText = some d ∧
      (∀ path c, callTree.root.at? path = some c →
        (b.Owns selectTree c ↔ ∃ q t, q <+: path ∧ Wrote d.root callTree.root q (.ref t))) ∧
      ∀ t c, (.ref t, c) ∈ d.root.pairs callTree.root →
        selectTree.byId? t = some c ∧ (∃ f, (.node f, c) ∈ b.root.pairs selectTree.root ∧ f.id = some t) ∧
          ∀ m, callTree.byId? t = some m → m.same c = false :=
  ⟨ofBase_selectText, ofEdited_callText, shared_iff_referred selectSource selectSource selectText callText
    selectTree callTree ofBase_selectText ofEdited_callText⟩

end LoadedTree

end Reprint
