import Mathlib
import Reprint.Proofs.Acceptance
import Reprint.Proofs.InStep
/-!
Places in trees that were built from documents. Every place that a document gives is checked against the text, so in a
tree that mirrors a document all nodes and tokens stand in the file of the text, with their offsets in order and between
its characters (`Framed`). Nodes that references bring in have the property as well. What is derived from framed nodes
need not be framed, but it stands between characters of the same file (`HasRange`). Main statement: base trees and edited
trees, when they load, are framed.
-/

namespace Reprint

/-- A range of the file that begins and ends between two characters. -/
structure Source.HasRange (source : Source) (s : Span) : Prop where
  file : s.file = source.name
  start : source.text.isBoundary s.start
  stop : source.text.isBoundary s.stop

/-! ### Tokens -/

/-- Where the names and modifiers of a layer stand. -/
def Kind.tokenSpans {α : Type} : Kind α → List (Option Span)
  | classDef mods name .. | objectDef mods name _ | valDef mods name .. | methodDef mods name ..
  | typeDef mods name .. => mods.map (·.span) ++ [name.span]
  | select _ name | bind name _ | selfType name _ => [name.span]
  | thisRef qual => qual.toList.map (·.span)
  | importSelector name rename => name.span :: rename.toList.map (·.span)
  | _ => []

/-- Names and modifiers stand where the names and modifiers of the layer say. -/
theorem Kind.mem_tokenSpans {k : Kind Node} {o : Option Span} (h : o ∈ k.tokenSpans) :
    (k.tag ≠ .ident ∧ ∃ s ∈ k.tag.names, o = (k.named s).bind (·.span)) ∨
      (k.tag.isDefinition ∧ ∃ m ∈ k.modifiers, o = m.span) := by
  cases k <;> simp only [tokenSpans, List.mem_append, List.mem_cons, List.mem_map, Option.mem_toList, List.not_mem_nil,
    or_false] at h
  case select | bind | selfType => exact .inl ⟨by rintro ⟨⟩, .name, .head _, h⟩
  case thisRef qual =>
    obtain ⟨name, rfl, rfl⟩ := h
    exact .inl ⟨by rintro ⟨⟩, .qual, .head _, rfl⟩
  case importSelector =>
    rcases h with rfl | ⟨rename, rfl, rfl⟩
    · exact .inl ⟨by rintro ⟨⟩, .name, .head _, rfl⟩
    · exact .inl ⟨by rintro ⟨⟩, .rename, .tail _ (.head _), rfl⟩
  all_goals
    rcases h with ⟨m, hm, rfl⟩ | rfl
    · exact .inr ⟨rfl, m, hm, rfl⟩
    · exact .inl ⟨by rintro ⟨⟩, .name, .head _, rfl⟩

namespace Node
variable {source : Source} {n c : Node}

theorem mem_nameTokens {owner : Identity} {part : Part} {name : Name} {t : Node} (h : t ∈ nameTokens owner part name) :
    t.span = name.span := by
  unfold nameTokens at h
  split at h
  · next s hs =>
    rw [List.mem_singleton.mp h, hs]
    rfl
  · cases h

theorem mem_modifierTokens {owner : Identity} {mods : List ModifierToken} {t : Node} (h : t ∈ modifierTokens owner mods) :
    t.span ∈ mods.map (·.span) := by
  simp only [modifierTokens, List.mem_filterMap, Option.map_eq_some_iff] at h
  obtain ⟨⟨m, i⟩, hm, s, hs, rfl⟩ := h
  exact List.mem_map.mpr ⟨m, List.fst_mem_of_mem_zipIdx hm, hs⟩

/-- A token stands where its owner says. -/
theorem span_mem_tokenSpans {t : Node} (h : t ∈ n.leading ++ n.trailing) : t.span ∈ n.kind.tokenSpans := by
  obtain ⟨i, s, k⟩ := n
  cases k <;> simp only [leading, trailing, List.append_nil, List.nil_append, List.mem_append, List.mem_flatMap,
    List.not_mem_nil, Option.mem_toList] at h <;> simp only [kind, Kind.tokenSpans, List.mem_append, List.mem_cons,
    List.not_mem_nil, or_false]
  case select => exact mem_nameTokens h
  case bind => exact mem_nameTokens h
  case selfType => exact mem_nameTokens h
  case thisRef =>
    obtain ⟨name, hname, h⟩ := h
    exact List.mem_map.mpr ⟨name, Option.mem_toList.mpr hname, (mem_nameTokens h).symm⟩
  case importSelector =>
    rcases h with h | ⟨name, hname, h⟩
    · exact .inl (mem_nameTokens h)
    · exact .inr (List.mem_map.mpr ⟨name, Option.mem_toList.mpr hname, (mem_nameTokens h).symm⟩)
  all_goals exact h.imp mem_modifierTokens mem_nameTokens

/-! ### Framed trees -/

/-- Whatever a document gave a place is framed by the text. -/
inductive Framed (source : Source) : Node → Prop where
  | intro {n : Node} : n.tag ≠ .superCall → (∀ s, n.span = some s → source.Frames s ∧ s.file = source.name) →
      (∀ t ∈ n.leading ++ n.trailing, ∀ s, t.span = some s → source.Frames s ∧ s.file = source.name) →
      (∀ c ∈ n.kind.slots, Framed source c) → Framed source n

/-- A call of a super constructor, made from framed nodes. -/
inductive FramedCall (source : Source) : Node → Prop where
  | intro {owner : Identity} {first : Node} {args : List Node} : Framed source first → (∀ a ∈ args, Framed source a) →
      FramedCall source (superCall owner first args)

theorem Framed.tag (h : Framed source n) : n.tag ≠ .superCall := by
  cases h with
  | intro htag _ _ _ => exact htag

theorem Framed.span (h : Framed source n) {s : Span} (hs : n.span = some s) :
    source.Frames s ∧ s.file = source.name := by
  cases h with
  | intro _ hspan _ _ => exact hspan s hs

theorem IsToken.framed (h : IsToken n) (hspan : ∀ s, n.span = some s → source.Frames s ∧ s.file = source.name) :
    Framed source n := by
  refine .intro ?_ hspan (fun t ht => ?_) fun c hc => ?_
  · obtain ⟨i, s, k⟩ := n
    intro htag
    cases k with
    | superCall callee args => cases h.slots
    | _ => cases htag
  · rw [h.leading, h.trailing] at ht
    cases ht
  · rw [h.slots] at hc
    cases hc

theorem Framed.child (h : Framed source n) (hc : c ∈ n.children) : Framed source c ∨ FramedCall source c := by
  cases h with
  | intro _ _ htokens hslots =>
    rcases child_cases hc with hc | hc | ⟨first, rest, args, self, body, hkind, rfl⟩
    · exact .inl (hslots c hc)
    · exact .inl ((isToken_of_mem_tokens hc).framed (htokens c hc))
    · rw [hkind] at hslots
      exact .inr (.intro (hslots first (by simp [Kind.slots])) fun a ha => hslots a (by simp [Kind.slots, ha]))

theorem FramedCall.child (h : FramedCall source n) (hc : c ∈ n.children) : Framed source c := by
  cases h with
  | @intro owner first args hfirst hargs =>
    rcases List.mem_cons.mp hc with rfl | hc
    · exact hfirst
    · exact hargs c hc

/-- Every node below a framed one is framed, or it is the call of a super constructor. -/
theorem Framed.cases (h : Framed source n ∨ FramedCall source n) :
    ∀ m ∈ n.preorder, Framed source m ∨ FramedCall source m := by
  induction n using children_induction with
  | step n ih =>
    intro m hm
    rcases mem_preorder_iff.mp hm with rfl | ⟨c, hc, hm⟩
    · exact h
    · refine ih c hc ?_ m hm
      rcases h with h | h
      · exact h.child hc
      · exact .inl (h.child hc)

/-- Where the call of a super constructor stands: it goes from the start of the parent to the stop of an argument. -/
theorem FramedCall.span (h : FramedCall source n) {r : Span} (hr : n.span = some r) :
    ∃ parent args last s t, n.kind = .superCall parent args ∧ args.getLast? = some last ∧ parent.span = some s ∧
      last.span = some t ∧ r = .range s.file s.start t.stop ∧ source.Frames s ∧ source.Frames t ∧
      s.file = source.name := by
  cases h with
  | @intro owner first args hfirst hargs =>
    rw [span_superCall] at hr
    obtain ⟨s, hs, hr⟩ := Option.bind_eq_some_iff.mp hr
    obtain ⟨t, ht, rfl⟩ := Option.map_eq_some_iff.mp hr
    obtain ⟨last, hlast, ht⟩ := Option.bind_eq_some_iff.mp ht
    exact ⟨first, args, last, s, t, rfl, hlast, hs, ht, rfl, (hfirst.span hs).1,
      ((hargs last (List.mem_of_getLast? hlast)).span ht).1, (hfirst.span hs).2⟩

/-- Every node of a framed tree stands in the text, derived ones included. -/
theorem Framed.hasRange (h : Framed source n) : ∀ m ∈ n.preorder, ∀ s, m.span = some s → source.HasRange s := by
  intro m hm r hr
  rcases cases (.inl h) m hm with hm | hm
  · obtain ⟨hframes, hfile⟩ := hm.span hr
    exact ⟨hfile, hframes.start, hframes.stop⟩
  · obtain ⟨_, _, _, s, t, -, -, -, -, rfl, hstart, hstop, hfile⟩ := hm.span hr
    exact ⟨hfile, hstart.start, hstop.stop⟩

end Node

/-! ### Trees that mirror documents -/

namespace Document
variable {source : Source} {shared : List (String × Node)}

theorem Fields.Depicts.frames {f : Fields NodeDoc} {k : Kind Node} (h : f.Depicts source k) {s : Span}
    (hs : some s ∈ k.tokenSpans) : source.Frames s ∧ s.file = source.name := by
  rcases Kind.mem_tokenSpans hs with ⟨htag, slot, hslot, hspan⟩ | ⟨htag, t, ht, hspan⟩
  · have := h.names htag slot hslot
    rw [← hspan] at this
    exact this.frames
  · obtain ⟨i, hi, hti⟩ := List.getElem_of_mem ht
    have hmods := h.modifiers htag
    have hplaces := (hmods.get (hmods.length_eq ▸ hi) hi).2
    simp only [List.get_eq_getElem, hti, ← hspan] at hplaces
    exact hplaces.frames

/-- Whatever hangs below a node is beside something in the document. -/
theorem Fields.Depicts.exists_beside {f : Fields NodeDoc} {n c : Node} (h : f.Depicts source n.kind)
    (hc : c ∈ n.kind.slots) : ∃ e, (e, c) ∈ f.beside n := by
  rw [← Kind.flatMap_filled, List.mem_flatMap] at hc
  obtain ⟨x, hx, hc⟩ := hc
  obtain ⟨i, hi, rfl⟩ := List.getElem_of_mem hc
  have hi' : i < (f.slot x.1).flatten.length := (length_flatten_eq (h.shape x hx)).symm ▸ hi
  have hzip : i < ((f.slot x.1).flatten.zip x.2.flatten).length := by
    rw [List.length_zip]
    exact Nat.lt_min.mpr ⟨hi', hi⟩
  refine ⟨(f.slot x.1).flatten[i], List.mem_flatMap.mpr ⟨x, hx, List.mem_iff_getElem.mpr ⟨i, hzip, ?_⟩⟩⟩
  exact List.getElem_zip

/-- What mirrors a document is framed, if the nodes that references name are. -/
theorem framed_of_describes (hshared : ∀ t m, shared.lookup t = some m → m.Framed source) {d : NodeDoc} {n : Node}
    (h : ∀ x ∈ d.pairs n, x.1.Describes source shared x.2) : n.Framed source := by
  induction n using Node.slots_induction generalizing d with
  | step n ih =>
    have hself := h _ (d.mem_pairs_self n)
    cases d with
    | ref t => exact hshared t n hself
    | node f =>
      obtain ⟨hderived, -, hplaces, hdepicts⟩ := hself
      refine .intro (fun htag => ?_) (fun s hs => ?_) (fun t ht s hs => ?_) fun c hc => ?_
      · rw [htag] at hderived
        cases hderived
      · rw [hs] at hplaces
        exact hplaces.frames
      · exact hdepicts.frames (hs ▸ Node.span_mem_tokenSpans ht)
      · obtain ⟨e, he⟩ := hdepicts.exists_beside hc
        exact ih c hc fun x hx => h x (NodeDoc.mem_pairs_node.mpr (.inr ⟨_, he, hx⟩))

/-- In a tree that mirrors a document the root is framed, and so is every node with an id. -/
theorem Faithful.framed (hshared : ∀ t m, shared.lookup t = some m → m.Framed source) {d : Document} {t : LoadedTree}
    (h : Faithful source shared d t) : t.root.Framed source ∧ ∀ id m, t.byId? id = some m → m.Framed source := by
  refine ⟨framed_of_describes hshared h.describes, fun id m hm => ?_⟩
  obtain ⟨f, hf, -⟩ := (h.byId id m).mp hm
  exact framed_of_describes hshared fun x hx => h.describes x (NodeDoc.mem_pairs_trans hf hx)

end Document

namespace LoadedTree

/-- A base tree that loads is framed by its text, with all nodes that references may name. -/
theorem ofBase_framed {source : Source} {text : Text} {base : LoadedTree} (h : ofBase source text = .ok base) :
    base.root.Framed source ∧ ∀ id m, base.byId? id = some m → m.Framed source := by
  obtain ⟨d, -, hfaithful⟩ := ofText_faithful h
  exact hfaithful.framed fun _ _ hnone => by cases hnone

/-- An edited tree that loads is framed by the same text. -/
theorem ofEdited_framed {source : Source} {text text' : Text} {base edited : LoadedTree}
    (hbase : ofBase source text = .ok base) (h : ofEdited source text' base = .ok edited) :
    edited.root.Framed source := by
  obtain ⟨d, -, hfaithful⟩ := ofText_faithful h
  exact (hfaithful.framed (ofBase_framed hbase).2).1

end LoadedTree

end Reprint
