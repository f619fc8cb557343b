import Mathlib
import Reprint.Proofs.Reading
/-!
Which documents are accepted, and what is made of them. A document is well formed if each of its nodes that is read has
all that its kind asks for and no two of them declare one id. `Buildable` is this condition for the nodes that are still
to be read, given the ids so far, and `Erected` says what the nodes read so far have become; both are put together from
the parts of a list. Main statements: nodes are built exactly if they can be (`isOk_iff_buildable`), and what is built
has been erected (`erected`); so texts are accepted exactly if they hold a well-formed document, and then the tree is
faithful to it.
-/

namespace Reprint

namespace Document
open Build

/-! ### Well-formed documents -/

/-- What reading asks of a document node. A reference needs the node that it names. -/
def NodeDoc.Acceptable (source : Source) (known : String → Prop) : NodeDoc → Prop
  | .ref t => known t
  | .node f => ∃ tag : Tag, tag.isDerived = false ∧ f.kind = tag.name ∧ source.Admits f.offsets ∧ f.Complete source tag

/-- A document with nothing wrong in what is read of it, against the ids that its references may name. -/
structure WellFormed (source : Source) (known : String → Prop) (d : Document) : Prop where
  acceptable : ∀ e ∈ d.root.met, e.Acceptable source known
  distinct : d.root.ids.Nodup

/-- A tree node is what a document node says. -/
def NodeDoc.Describes (source : Source) (shared : List (String × Node)) : NodeDoc → Node → Prop
  | .ref t, n => shared.lookup t = some n
  | .node f, n => n.tag.isDerived = false ∧ f.kind = n.tag.name ∧ source.Places f.transparent f.offsets n.span ∧
      f.Depicts source n.kind

/-- The nodes that declare ids, under these. -/
def entriesOf (l : List (NodeDoc × Node)) : List (String × Node) := l.filterMap fun x => x.1.id?.map (·, x.2)

/-- The identities of the nodes that were built, those of references left out. -/
def builtOf (l : List (NodeDoc × Node)) : List Identity := (l.filter (!·.1.isRef)).map (·.2.identity)

/-- A tree mirrors a document: every node that is read has its counterpart in the same place, an instance of its own
unless it is a reference, and it is found under the id that it declares. -/
structure Faithful (source : Source) (shared : List (String × Node)) (d : Document) (t : LoadedTree) : Prop where
  covers : (d.root.pairs t.root).map Prod.fst = d.root.met
  describes : ∀ x ∈ d.root.pairs t.root, x.1.Describes source shared x.2
  distinct : (builtOf (d.root.pairs t.root)).Nodup
  byId : ∀ id m, t.byId? id = some m ↔ ∃ f, (.node f, m) ∈ d.root.pairs t.root ∧ f.id = some id

/-! ### What has been built -/

section Erected
variable {context : Context} {p q r : Progress} {l l' : List (NodeDoc × Node)}

/-- What becomes of the progress while the nodes of a list are built, one after the other. -/
structure Erected (context : Context) (p q : Progress) (l : List (NodeDoc × Node)) : Prop where
  describes : ∀ x ∈ l, x.1.Describes context.source context.shared x.2
  ids : q.ids = (entriesOf l).reverse ++ p.ids
  next : q.next = p.next + (builtOf l).length
  built : builtOf l = (List.range' p.next (builtOf l).length).map .built

theorem entriesOf_append : entriesOf (l ++ l') = entriesOf l ++ entriesOf l' := List.filterMap_append

theorem builtOf_append : builtOf (l ++ l') = builtOf l ++ builtOf l' := by simp [builtOf]

theorem map_fst_entriesOf : (entriesOf l).map Prod.fst = (l.map Prod.fst).filterMap NodeDoc.id? := by
  rw [entriesOf, List.map_filterMap, List.filterMap_map]
  refine List.filterMap_congr fun x _ => ?_
  rw [Function.comp_apply]
  cases x.1.id? <;> rfl

theorem Erected.nil : Erected context p p [] := ⟨nofun, rfl, rfl, rfl⟩

theorem Erected.append (h : Erected context p r l) (h' : Erected context r q l') : Erected context p q (l ++ l') where
  describes := List.forall_mem_append.mpr ⟨h.describes, h'.describes⟩
  ids := by rw [h'.ids, h.ids, entriesOf_append, List.reverse_append, List.append_assoc]
  next := by rw [h'.next, h.next, builtOf_append, List.length_append, Nat.add_assoc]
  built := by
    have hbuilt := h'.built
    rw [h.next] at hbuilt
    rw [builtOf_append, List.length_append, ← List.range'_append_1, List.map_append, ← h.built, ← hbuilt]

theorem Erected.ref {t : String} {n : Node} (h : context.shared.lookup t = some n) :
    Erected context p p [(.ref t, n)] where
  describes := List.forall_mem_singleton.mpr h
  ids := rfl
  next := rfl
  built := rfl

theorem Erected.node {f : Fields NodeDoc} {n : Node} (h : Assembled context f p r n q) :
    Erected context r q [(.node f, n)] where
  describes := by
    obtain ⟨hderived, hkind⟩ := Fields.tag?_eq_some_iff.mp h.tag
    exact List.forall_mem_singleton.mpr ⟨hderived, hkind, h.place, h.depicts⟩
  ids := by
    rw [h.progress]
    cases hid : f.id <;> simp [entriesOf, NodeDoc.id?, hid]
  next := by rw [h.progress]; rfl
  built := by simp [builtOf, NodeDoc.isRef, h.identity]

end Erected

/-! ### What is below a node, beside what hangs below it in the tree -/

theorem length_flatten_eq {α β : Type} {ls : List (List α)} {rs : List (List β)}
    (h : ls.map List.length = rs.map List.length) : ls.flatten.length = rs.flatten.length := by
  rw [List.length_flatten, List.length_flatten, h]

theorem flatMap_zip_flatten {f : Fields NodeDoc} {l : List (Slot × List (List Node))}
    (h : ∀ x ∈ l, (f.slot x.1).map List.length = x.2.map List.length) :
    (l.flatMap fun x => (f.slot x.1).flatten.zip x.2.flatten) =
      ((l.map Prod.fst).flatMap fun s => (f.slot s).flatten).zip (l.flatMap fun x => x.2.flatten) := by
  induction l with
  | nil => rfl
  | cons x l ih =>
    rw [List.forall_mem_cons] at h
    rw [List.flatMap_cons, List.map_cons, List.flatMap_cons, List.flatMap_cons, List.zip_append (length_flatten_eq h.1),
      ih h.2]

/-- Where a layer has the shape that fields describe, slots pair up one by one. -/
theorem Fields.Depicts.beside_eq {source : Source} {f : Fields NodeDoc} {n : Node} (h : f.Depicts source n.kind) :
    f.beside n = (f.below n.tag).zip n.kind.slots := by
  rw [Fields.beside, flatMap_zip_flatten h.shape, Kind.map_fst_filled, Kind.flatMap_filled]
  rfl

/-! ### Nodes that are built -/

section Built
variable {context : Context} {p q : Progress}

theorem erected_list {ds : List NodeDoc} {ns : List Node}
    (ih : ∀ d ∈ ds, ∀ {p q n}, node d context p = .ok (n, q) →
      Erected context p q (d.pairs n) ∧ (d.pairs n).map Prod.fst = d.met)
    (h : ds.mapM node context p = .ok (ns, q)) :
    Erected context p q ((ds.zip ns).flatMap fun x => x.1.pairs x.2) ∧
      ((ds.zip ns).flatMap fun x => x.1.pairs x.2).map Prod.fst = ds.flatMap NodeDoc.met := by
  induction ds generalizing p ns with
  | nil =>
    obtain ⟨rfl, rfl⟩ := mapM_nil_iff.mp h
    exact ⟨.nil, rfl⟩
  | cons d ds ihds =>
    obtain ⟨n, r, ms, hn, hms, rfl⟩ := mapM_cons_iff.mp h
    obtain ⟨herected, hmet⟩ := ih d (List.mem_cons_self ..) hn
    obtain ⟨herecteds, hmets⟩ := ihds (fun e he => ih e (List.mem_cons_of_mem _ he)) hms
    rw [List.zip_cons_cons, List.flatMap_cons, List.map_append, List.flatMap_cons, hmet, hmets]
    exact ⟨herected.append herecteds, rfl⟩

theorem erected {d : NodeDoc} (hd : d.Narrow) {n : Node} (h : node d context p = .ok (n, q)) :
    Erected context p q (d.pairs n) ∧ (d.pairs n).map Prod.fst = d.met := by
  induction hd generalizing p n q with
  | ref =>
    obtain ⟨hn, rfl⟩ := node_ref_iff.mp h
    rw [NodeDoc.pairs_ref, NodeDoc.met_ref]
    exact ⟨.ref hn, rfl⟩
  | @node f hvalue hnodes ih =>
    obtain ⟨r, hn⟩ := node_inv (fun _ => (NodeDoc.Narrow.node hvalue hnodes).int_le) h
    obtain ⟨hbelow, hmet⟩ := erected_list (fun e he => ih e (Fields.mem_nodes_of_mem_below he)) hn.below
    rw [NodeDoc.pairs_node, hn.depicts.beside_eq, NodeDoc.met_node hn.tag, List.map_append, hmet]
    exact ⟨hbelow.append (.node hn), rfl⟩

end Built

/-! ### Nodes that can be built -/

section Buildable
variable {context : Context} {p q : Progress} {l l' : List NodeDoc}

/-- Nodes that can be read one after the other. -/
structure Buildable (context : Context) (p : Progress) (l : List NodeDoc) : Prop where
  acceptable : ∀ e ∈ l, e.Acceptable context.source fun t => (context.shared.lookup t).isSome
  distinct : (l.filterMap NodeDoc.id?).Nodup
  unused : ∀ id ∈ l.filterMap NodeDoc.id?, p.ids.lookup id = none

theorem Buildable.nil : Buildable context p [] := ⟨nofun, .nil, nofun⟩

theorem Buildable.of_append (h : Buildable context p (l ++ l')) : Buildable context p l := by
  obtain ⟨hacceptable, hdistinct, hunused⟩ := h
  rw [List.filterMap_append] at hdistinct hunused
  exact ⟨(List.forall_mem_append.mp hacceptable).1, hdistinct.of_append_left, (List.forall_mem_append.mp hunused).1⟩

theorem lookup_eq_none_iff {ids : List (String × Node)} {id : String} : ids.lookup id = none ↔ id ∉ ids.map Prod.fst := by
  rw [List.lookup_eq_none_iff]
  simp only [List.mem_map, not_exists, not_and, bne_iff_ne, ne_eq]
  exact forall₂_congr fun x _ => ⟨fun h h' => h h'.symm, fun h h' => h h'.symm⟩

/-- After some nodes, others can be built exactly if they could be before and have no id of these. -/
theorem buildable_append_iff {x : List (NodeDoc × Node)} (h : Erected context p q x) (hx : x.map Prod.fst = l) :
    Buildable context p (l ++ l') ↔ Buildable context p l ∧ Buildable context q l' := by
  have hkeys : ∀ id, q.ids.lookup id = none ↔ id ∉ l.filterMap NodeDoc.id? ∧ p.ids.lookup id = none := by
    intro id
    rw [lookup_eq_none_iff, lookup_eq_none_iff, h.ids, List.map_append, List.map_reverse, map_fst_entriesOf, hx,
      List.mem_append, List.mem_reverse, not_or]
  constructor
  · rintro ⟨hacceptable, hdistinct, hunused⟩
    rw [List.filterMap_append] at hdistinct hunused
    rw [List.forall_mem_append] at hacceptable hunused
    obtain ⟨hl, hl', hapart⟩ := List.nodup_append'.mp hdistinct
    exact ⟨⟨hacceptable.1, hl, hunused.1⟩, hacceptable.2, hl',
      fun id hid => (hkeys id).mpr ⟨fun hid' => hapart hid' hid, hunused.2 id hid⟩⟩
  · rintro ⟨hl, hl'⟩
    refine ⟨List.forall_mem_append.mpr ⟨hl.acceptable, hl'.acceptable⟩, ?_, ?_⟩
    · rw [List.filterMap_append, List.nodup_append']
      exact ⟨hl.distinct, hl'.distinct, fun id hid hid' => ((hkeys id).mp (hl'.unused id hid')).1 hid⟩
    · rw [List.filterMap_append]
      exact List.forall_mem_append.mpr ⟨hl.unused, fun id hid => ((hkeys id).mp (hl'.unused id hid)).2⟩

theorem buildable_ref_iff {t : String} : Buildable context p [.ref t] ↔ ∃ n, context.shared.lookup t = some n := by
  rw [← Option.isSome_iff_exists]
  exact ⟨fun h => h.acceptable _ (List.mem_singleton_self _), fun h => ⟨List.forall_mem_singleton.mpr h, .nil, nofun⟩⟩

theorem buildable_node_iff {f : Fields NodeDoc} : Buildable context p [.node f] ↔
    (∃ tag, f.tag? = some tag ∧ context.source.Admits f.offsets ∧ f.Complete context.source tag) ∧
      ∀ id, f.id = some id → p.ids.lookup id = none := by
  simp only [Fields.tag?_eq_some_iff, and_assoc]
  have hids : [NodeDoc.node f].filterMap NodeDoc.id? = f.id.toList := by
    cases hid : f.id <;> simp [NodeDoc.id?, hid]
  constructor
  · rintro ⟨hacceptable, -, hunused⟩
    rw [hids] at hunused
    exact ⟨hacceptable _ (List.mem_singleton_self _), fun id hid => hunused id (by simp [hid])⟩
  · rintro ⟨hacceptable, hunused⟩
    refine ⟨List.forall_mem_singleton.mpr hacceptable, ?_, ?_⟩
    · rw [hids]
      cases f.id <;> simp
    · rw [hids]
      exact fun id hid => hunused id (by simpa using hid)

theorem isOk_list_iff_buildable {ds : List NodeDoc} (hnarrow : ∀ d ∈ ds, d.Narrow)
    (ih : ∀ d ∈ ds, ∀ {p}, (∃ n q, node d context p = .ok (n, q)) ↔ Buildable context p d.met) :
    (∃ ns q, ds.mapM node context p = .ok (ns, q)) ↔ Buildable context p (ds.flatMap NodeDoc.met) := by
  induction ds generalizing p with
  | nil => exact ⟨fun _ => .nil, fun _ => ⟨[], p, mapM_nil_iff.mpr ⟨rfl, rfl⟩⟩⟩
  | cons d ds ihds =>
    rw [List.forall_mem_cons] at hnarrow
    rw [List.flatMap_cons]
    have hrest : ∀ {p}, (∃ ns q, ds.mapM node context p = .ok (ns, q)) ↔ Buildable context p (ds.flatMap NodeDoc.met) :=
      ihds hnarrow.2 fun e he => ih e (List.mem_cons_of_mem _ he)
    have hfirst := ih d (List.mem_cons_self ..) (p := p)
    constructor
    · rintro ⟨ns, q, h⟩
      obtain ⟨n, r, ms, hn, hms, -⟩ := mapM_cons_iff.mp h
      obtain ⟨herected, hmet⟩ := erected hnarrow.1 hn
      exact (buildable_append_iff herected hmet).mpr ⟨hfirst.mp ⟨n, r, hn⟩, hrest.mp ⟨ms, q, hms⟩⟩
    · intro h
      -- The rest has to go with the ids that are there once the first node is built.
      obtain ⟨n, r, hn⟩ := hfirst.mpr h.of_append
      obtain ⟨herected, hmet⟩ := erected hnarrow.1 hn
      obtain ⟨ms, q, hms⟩ := hrest.mpr ((buildable_append_iff herected hmet).mp h).2
      exact ⟨n :: ms, q, mapM_cons_iff.mpr ⟨n, r, ms, hn, hms, rfl⟩⟩

/-- Whether a node can be built depends on the nodes that are met below it, and on the ids so far. -/
theorem isOk_iff_buildable {d : NodeDoc} (hd : d.Narrow) :
    (∃ n q, node d context p = .ok (n, q)) ↔ Buildable context p d.met := by
  induction hd generalizing p with
  | ref =>
    rw [NodeDoc.met_ref, buildable_ref_iff]
    exact exists_congr fun n => ⟨fun ⟨_, h⟩ => (node_ref_iff.mp h).1, fun h => ⟨p, node_ref_iff.mpr ⟨h, rfl⟩⟩⟩
  | @node f hvalue hnodes ih =>
    have hnarrow : (NodeDoc.node f).Narrow := .node hvalue hnodes
    have hbelow : ∀ {p tag}, (∃ ns q, (f.below tag).mapM node context p = .ok (ns, q)) ↔
        Buildable context p ((f.below tag).flatMap NodeDoc.met) :=
      isOk_list_iff_buildable hnarrow.of_mem_below fun e he => ih e (Fields.mem_nodes_of_mem_below he)
    have hlist : ∀ {tag p r ns}, (f.below tag).mapM node context p = .ok (ns, r) → _ :=
      fun h => erected_list (fun e he => erected (hnarrow.of_mem_below e he)) h
    constructor
    · rintro ⟨n, q, h⟩
      obtain ⟨r, hn⟩ := node_inv (fun _ => hnarrow.int_le) h
      obtain ⟨herected, hmet⟩ := hlist hn.below
      rw [NodeDoc.met_node hn.tag, buildable_append_iff herected hmet]
      exact ⟨hbelow.mp ⟨_, r, hn.below⟩, buildable_node_iff.mpr ⟨⟨n.tag, hn.tag, hn.admits, hn.complete⟩, hn.unused⟩⟩
    · intro h
      obtain ⟨tag, hderived, hkind, hadmits, hcomplete⟩ := h.acceptable _ (NodeDoc.mem_met_self _)
      have htag : f.tag? = some tag := Fields.tag?_eq_some_iff.mpr ⟨hderived, hkind⟩
      rw [NodeDoc.met_node htag] at h
      -- A node is registered after everything below it, so its id has to differ from theirs.
      obtain ⟨ns, r, hns⟩ := hbelow.mpr h.of_append
      obtain ⟨herected, hmet⟩ := hlist hns
      obtain ⟨-, hunused⟩ := buildable_node_iff.mp ((buildable_append_iff herected hmet).mp h).2
      exact node_of_complete (fun _ => hnarrow.int_le) htag hadmits hcomplete hns hunused

end Buildable

/-! ### Documents -/

section Documents
variable {context : Context} {next : Nat} {d : Document} {t : LoadedTree}

theorem build_eq_ok_iff : d.build context next = .ok t ↔
    node d.root context { next } = .ok (t.root, { ids := t.ids, next := t.next }) := by
  have hbuild : d.build context next = (node d.root context { next } >>= fun x =>
    .ok { root := x.1, ids := x.2.ids, next := x.2.next }) := rfl
  rw [hbuild]
  cases node d.root context { next } with
  | error e => exact ⟨nofun, nofun⟩
  | ok x =>
    constructor
    · rintro ⟨⟩
      rfl
    · rintro ⟨⟩
      rfl

theorem exists_build_iff (hd : d.root.Narrow) : (∃ t, d.build context next = .ok t) ↔
    d.WellFormed context.source fun t => (context.shared.lookup t).isSome := by
  have hbuild : (∃ t, d.build context next = .ok t) ↔ ∃ n q, node d.root context { next } = .ok (n, q) := by
    simp only [build_eq_ok_iff]
    exact ⟨fun ⟨t, h⟩ => ⟨_, _, h⟩, fun ⟨n, q, h⟩ => ⟨{ root := n, ids := q.ids, next := q.next }, h⟩⟩
  rw [hbuild, isOk_iff_buildable hd]
  exact ⟨fun h => ⟨h.acceptable, h.distinct⟩, fun h => ⟨h.acceptable, h.distinct, fun _ _ => rfl⟩⟩

theorem build_erected (hd : d.root.Narrow) (h : d.build context next = .ok t) :
    Erected context { next } { ids := t.ids, next := t.next } (d.root.pairs t.root) ∧
      (d.root.pairs t.root).map Prod.fst = d.root.met :=
  erected hd (build_eq_ok_iff.mp h)

theorem lookup_eq_some_iff_mem {ids : List (String × Node)} (h : (ids.map Prod.fst).Nodup) {id : String} {m : Node} :
    ids.lookup id = some m ↔ (id, m) ∈ ids := by
  induction ids with
  | nil => simp
  | cons x ids ih =>
    rw [List.map_cons, List.nodup_cons] at h
    have hnone := lookup_eq_none_iff.mpr h.1
    rw [List.mem_cons, ← ih h.2]
    grind

theorem build_faithful (hd : d.root.Narrow) (h : d.build context next = .ok t) :
    Faithful context.source context.shared d t := by
  obtain ⟨herected, hmet⟩ := build_erected hd h
  have hids : t.ids = (entriesOf (d.root.pairs t.root)).reverse := by simpa using herected.ids
  have hkeys : (t.ids.map Prod.fst).Nodup := by
    rw [hids, List.map_reverse, List.nodup_reverse, map_fst_entriesOf, hmet]
    exact ((exists_build_iff hd).mp ⟨t, h⟩).distinct
  refine ⟨hmet, herected.describes, ?_, fun id m => ?_⟩
  · rw [herected.built]
    exact (List.nodup_range' ..).map fun a b hab => by cases hab; rfl
  · rw [LoadedTree.byId?, lookup_eq_some_iff_mem hkeys, hids, List.mem_reverse, entriesOf, List.mem_filterMap]
    constructor
    · rintro ⟨⟨e, n⟩, hmem, heq⟩
      obtain ⟨i, hi, heq⟩ := Option.map_eq_some_iff.mp heq
      cases heq
      cases e with
      | ref t => cases hi
      | node f => exact ⟨f, hmem, hi⟩
    · rintro ⟨f, hmem, hid⟩
      exact ⟨_, hmem, by simp [NodeDoc.id?, hid]⟩

/-- The ids under which nodes are found are those that the document declares. -/
theorem Faithful.isSome_byId {source : Source} {shared : List (String × Node)} (h : Faithful source shared d t)
    (id : String) : (t.byId? id).isSome ↔ id ∈ d.root.ids := by
  rw [Option.isSome_iff_exists, NodeDoc.ids, List.mem_filterMap]
  simp only [h.byId, ← h.covers, List.mem_map]
  constructor
  · rintro ⟨m, f, hmem, hid⟩
    exact ⟨.node f, ⟨_, hmem, rfl⟩, hid⟩
  · rintro ⟨_, ⟨⟨e, m⟩, hmem, rfl⟩, hid⟩
    cases e with
    | ref t => cases hid
    | node f => exact ⟨m, f, hmem, hid⟩

end Documents

end Document

namespace LoadedTree
open Document

theorem ofText_eq_ok_iff {context : Context} {next : Nat} {text : Text} {t : LoadedTree} :
    ofText context next text = .ok t ↔ ∃ d, read? text = some d ∧ d.build context next = .ok t := by
  unfold ofText
  cases read? text with
  | none => simp
  | some d => simp

theorem exists_ofText_iff {context : Context} {next : Nat} {text : Text} : (∃ t, ofText context next text = .ok t) ↔
    ∃ d, read? text = some d ∧ d.WellFormed context.source fun t => (context.shared.lookup t).isSome := by
  simp only [ofText_eq_ok_iff]
  constructor
  · rintro ⟨t, d, hd, h⟩
    exact ⟨d, hd, (exists_build_iff (read_narrow hd)).mp ⟨t, h⟩⟩
  · rintro ⟨d, hd, h⟩
    obtain ⟨t, ht⟩ := (exists_build_iff (read_narrow hd)).mpr h
    exact ⟨t, d, hd, ht⟩

theorem ofText_faithful {context : Context} {next : Nat} {text : Text} {t : LoadedTree}
    (h : ofText context next text = .ok t) :
    ∃ d, read? text = some d ∧ Faithful context.source context.shared d t := by
  obtain ⟨d, hd, h⟩ := ofText_eq_ok_iff.mp h
  exact ⟨d, hd, build_faithful (read_narrow hd) h⟩

/-- Texts are loaded exactly if they hold a well-formed document, and the trees mirror the documents. In a base document
references name nothing, in an edited one the ids of the base document. -/
theorem accepted_iff_wellFormed (source : Source) (text : Text) :
    ((∃ t, ofBase source text = .ok t) ↔ ∃ d, read? text = some d ∧ d.WellFormed source fun _ => False) ∧
      ∀ base, ofBase source text = .ok base → ∃ d, read? text = some d ∧ Faithful source [] d base ∧
        ∀ source' text',
          ((∃ t, ofEdited source' text' base = .ok t) ↔
            ∃ e, read? text' = some e ∧ e.WellFormed source' (· ∈ d.root.ids)) ∧
          ∀ t, ofEdited source' text' base = .ok t → ∃ e, read? text' = some e ∧ Faithful source' base.ids e t := by
  constructor
  · have hnone : (fun t => ((([] : List (String × Node)).lookup t).isSome = true)) = fun _ => False := by simp
    rw [← hnone]
    exact exists_ofText_iff
  · intro base hbase
    obtain ⟨d, hd, hfaithful⟩ := ofText_faithful hbase
    refine ⟨d, hd, hfaithful, fun source' text' => ⟨?_, fun t ht => ofText_faithful ht⟩⟩
    have hids : (fun t => (base.ids.lookup t).isSome = true) = (· ∈ d.root.ids) :=
      funext fun t => propext (hfaithful.isSome_byId t)
    rw [← hids]
    exact exists_ofText_iff

/-- A selection, and below a document with ids and positions for it. -/
def selectSource : Source := { name := "A.scala", text := ['f', '.', 'x'] }

def selectText : Text :=
  ("[\"A\",\x7b\"kind\":\"select\",\"id\":\"s\",\"pos\":[0,3]," ++
    "\"name\":\x7b\"text\":\"x\",\"pos\":[2,3]\x7d,\"qualifier\":[\"ident\",null,[0,1],false,\"f\"]\x7d]").toList

/-- A call of the selection, by reference, with literals for arguments. The first of them declares the id of the
selection anew. -/
def callText : Text :=
  ("[\"A\",\x7b\"kind\":\"apply\",\"fun\":\x7b\"ref\":\"s\"\x7d,\"args\":[" ++
    "\x7b\"kind\":\"literal\",\"id\":\"s\",\"value\":\x7b\"char\":\"c\"\x7d\x7d," ++
    "\x7b\"kind\":\"literal\",\"value\":7\x7d]\x7d]").toList

def selection : Node :=
  .mk (.built 1) (some (.range "A.scala" 0 3))
    (.select (.mk (.built 0) (some (.range "A.scala" 0 1)) (.ident "f"))
      { text := "x", span := some (.range "A.scala" 2 3) })

def selectTree : LoadedTree := { root := selection, ids := [("s", selection)], next := 2 }

def character : Node := .mk (.built 2) none (.literal (.char 'c'))

def number : Node := .mk (.built 3) none (.literal (.int 7))

def callTree : LoadedTree where
  root := .mk (.built 4) none (.apply selection [character, number])
  ids := [("s", character)]
  next := 5

theorem ofBase_selectText : ofBase selectSource selectText = .ok selectTree := by cbv

theorem ofEdited_callText : ofEdited selectSource callText selectTree = .ok callTree := by cbv

/-- The selection and its call are accepted, and their trees mirror them. -/
theorem accepted_selection_and_call :
    ofBase selectSource selectText = .ok selectTree ∧ ofEdited selectSource callText selectTree = .ok callTree ∧
      ∃ d e, read? selectText = some d ∧ Faithful selectSource [] d selectTree ∧ read? callText = some e ∧
        e.WellFormed selectSource (· ∈ d.root.ids) ∧ Faithful selectSource selectTree.ids e callTree := by
  refine ⟨ofBase_selectText, ofEdited_callText, ?_⟩
  obtain ⟨d, hd, hbase, hedited⟩ := (accepted_iff_wellFormed selectSource selectText).2 selectTree ofBase_selectText
  obtain ⟨haccepted, hfaithful⟩ := hedited selectSource callText
  obtain ⟨e, he, hwellFormed⟩ := haccepted.mp ⟨callTree, ofEdited_callText⟩
  obtain ⟨e', he', hcall⟩ := hfaithful callTree ofEdited_callText
  cases he.symm.trans he'
  exact ⟨d, e, hd, hbase, he, hwellFormed, hcall⟩

end LoadedTree

end Reprint
