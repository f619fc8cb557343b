import Mathlib
import Reprint.Proofs.Cuts
import Reprint.Proofs.Literals
/-!
How a document node is read. `Fields.Complete` says what its kind asks of it, `Fields.Depicts` what the node built from
it looks like. A step of building `Gathers` some document nodes when it succeeds exactly if a condition of its own holds
and these nodes can be built one after the other. Main statements: a layer gathers the nodes in the slots that its kind
reads, and nothing else of a document node matters (`gathers_layer`); so a node is built from what is below it, the next
free number and an id that is still free (`node_inv`, `node_of_complete`).
-/

namespace Reprint

/-! ### Places -/

/-- How a place is written: its two ends, with the point between them unless it is the start. -/
def Span.WrittenAs (s : Span) (l : List Nat) : Prop :=
  (l = [s.start, s.stop] ∧ s.point = s.start) ∨ l = [s.start, s.point, s.stop]

namespace Source

/-- A place in the text with its offsets in order and between characters. -/
structure Frames (source : Source) (s : Span) : Prop where
  start_le : s.start ≤ s.point
  le_stop : s.point ≤ s.stop
  stop_le : s.stop ≤ source.size
  start : source.text.isBoundary s.start
  point : source.text.isBoundary s.point
  stop : source.text.isBoundary s.stop

/-- Offsets that are the place of something in the text. -/
def Accepts (source : Source) (l : List Nat) : Prop := ∃ s : Span, s.WrittenAs l ∧ source.Frames s

/-- A place that may be left out. -/
def Admits (source : Source) (o : Option (List Nat)) : Prop := ∀ l, o = some l → source.Accepts l

/-- What becomes of a place that may be left out. -/
inductive Places (source : Source) (transparent : Bool) : Option (List Nat) → Option Span → Prop where
  | none : Places source transparent none none
  | some {l : List Nat} {s : Span} : s.WrittenAs l → source.Frames s → s.file = source.name →
      s.transparent = transparent → Places source transparent (some l) (some s)

theorem Places.frames {source : Source} {transparent : Bool} {o : Option (List Nat)} {s : Span}
    (h : source.Places transparent o (.some s)) : source.Frames s ∧ s.file = source.name := by
  cases h with
  | some _ hframes hfile _ => exact ⟨hframes, hfile⟩

end Source

namespace Document
open Build

theorem splitOffsets_eq_ok_iff {l : List Nat} {start point stop : Nat} :
    splitOffsets l = .ok (start, point, stop) ↔ (l = [start, stop] ∧ point = start) ∨ l = [start, point, stop] := by
  unfold splitOffsets
  split
  · simp only [Except.ok.injEq, Prod.mk.injEq, List.cons.injEq, and_true]
    grind
  · simp only [Except.ok.injEq, Prod.mk.injEq, List.cons.injEq, and_true]
    grind
  · grind

theorem spanOf_inv {source : Source} {offsets : List Nat} {s : Span} (h : spanOf source offsets = .ok s) :
    splitOffsets offsets = .ok (s.start, s.point, s.stop) ∧ s.stop ≤ source.size ∧ s.start ≤ s.point ∧ s.point ≤ s.stop ∧
      (∀ n ∈ [s.start, s.point, s.stop], source.text.isBoundary n) ∧ s.file = source.name ∧ s.transparent = false := by
  unfold spanOf at h
  cases hsplit : splitOffsets offsets with
  | error e =>
    rw [hsplit] at h
    cases h
  | ok x =>
    obtain ⟨start, point, stop⟩ := x
    rw [hsplit] at h
    dsimp only [Bind.bind, Except.bind] at h
    split at h
    · cases h
    · next hbounds =>
      split at h
      · cases h
      · next hpoint =>
        split at h
        · cases h
        · next hnone =>
          cases h
          simp only [not_or, Nat.not_lt] at hbounds hpoint
          have hall := List.find?_eq_none.mp hnone
          exact ⟨rfl, hbounds.2, hpoint.1, hpoint.2, fun n hn => by simpa using hall n hn, rfl, rfl⟩

/-- A place is taken exactly if its offsets are in order, in the text and between characters. -/
theorem spanOf_eq_ok_iff {source : Source} {l : List Nat} {s : Span} : spanOf source l = .ok s ↔
    s.WrittenAs l ∧ source.Frames s ∧ s.file = source.name ∧ s.transparent = false := by
  constructor
  · intro h
    obtain ⟨hsplit, hstop, hstart, hpoint, hall, hfile, htransparent⟩ := spanOf_inv h
    exact ⟨splitOffsets_eq_ok_iff.mp hsplit, ⟨hstart, hpoint, hstop, hall s.start (by simp), hall s.point (by simp),
      hall s.stop (by simp)⟩, hfile, htransparent⟩
  · rintro ⟨hwritten, hframes, hfile, htransparent⟩
    have hbounds : ¬ (s.stop < s.start ∨ source.size < s.stop) := by
      have := hframes.start_le
      have := hframes.le_stop
      have := hframes.stop_le
      omega
    have hpoint : ¬ (s.point < s.start ∨ s.stop < s.point) := by
      have := hframes.start_le
      have := hframes.le_stop
      omega
    have hnone : ([s.start, s.point, s.stop].find? fun n => !source.text.isBoundary n) = none := by
      simp [hframes.start, hframes.point, hframes.stop]
    unfold spanOf
    rw [splitOffsets_eq_ok_iff.mpr hwritten]
    dsimp only [Bind.bind, Except.bind]
    rw [if_neg hbounds, if_neg hpoint]
    simp only [hnone, ← hfile, ← htransparent]
    rfl

/-! ### What a kind asks for and what it makes -/

namespace Fields
variable {α : Type}

/-- Everything is there that a kind reads besides the nodes below, and can be read. -/
structure Complete (source : Source) (f : Fields α) (tag : Tag) : Prop where
  filled : ∀ s ∈ tag.requires, (f.slot s).flatten ≠ []
  named : NameSlot.name ∈ tag.names → f.name.isSome
  names : ∀ s ∈ tag.names, source.Admits ((f.named s).bind (·.offsets))
  modifiers : tag.isDefinition → ∀ m ∈ f.mods, source.Admits m.offsets
  value : tag = .literal → Supported f.value

theorem complete_iff {source : Source} {f : Fields α} {tag : Tag} : f.Complete source tag ↔
    (∀ s ∈ tag.requires, (f.slot s).flatten ≠ []) ∧ (NameSlot.name ∈ tag.names → f.name.isSome) ∧
      (∀ s ∈ tag.names, source.Admits ((f.named s).bind (·.offsets))) ∧
      (tag.isDefinition → ∀ m ∈ f.mods, source.Admits m.offsets) ∧ (tag = .literal → Supported f.value) :=
  ⟨fun ⟨h₁, h₂, h₃, h₄, h₅⟩ => ⟨h₁, h₂, h₃, h₄, h₅⟩, fun ⟨h₁, h₂, h₃, h₄, h₅⟩ => ⟨h₁, h₂, h₃, h₄, h₅⟩⟩

/-- A layer says what the fields of a document node say. An identifier has no place for its name apart from its own. -/
structure Depicts (source : Source) (f : Fields α) (k : Kind Node) : Prop where
  texts : ∀ s ∈ k.tag.names, (k.named s).map (·.text) = (f.named s).map (·.text)
  names : k.tag ≠ .ident → ∀ s ∈ k.tag.names,
    source.Places false ((f.named s).bind (·.offsets)) ((k.named s).bind (·.span))
  modifiers : k.tag.isDefinition → List.Forall₂
    (fun (m : ModifierField) (t : ModifierToken) => t.flag = m.flag ∧ source.Places false m.offsets t.span)
      f.mods k.modifiers
  value : k.tag = .literal → ∃ c, k.value? = some c ∧ Denotes f.value c
  shape : ∀ x ∈ k.filled, (f.slot x.1).map List.length = x.2.map List.length

end Fields

/-! ### Steps of building -/

namespace Build
variable {context : Context} {α β : Type}

theorem bind_eq_ok_iff {m : Build α} {g : α → Build β} {p : Progress} {x : β × Progress} :
    (m >>= g) context p = .ok x ↔ ∃ a q, m context p = .ok (a, q) ∧ g a context q = .ok x := by
  show (m context p >>= fun y => g y.1 context y.2) = .ok x ↔ _
  cases m context p with
  | error e => simp [Bind.bind, Except.bind]
  | ok y =>
    obtain ⟨a, q⟩ := y
    simp [Bind.bind, Except.bind]

theorem pure_eq_ok_iff {a : α} {p : Progress} {x : α × Progress} :
    (pure a : Build α) context p = .ok x ↔ x = (a, p) := by
  show Except.ok (a, p) = .ok x ↔ _
  rw [Except.ok.injEq, eq_comm]

/-- A step takes no longer than building the nodes `ds` in turn: it succeeds exactly if `V` holds and these can be built,
goes the same way, and gives what `P` says of the nodes. -/
structure Gathers (context : Context) (m : Build α) (V : Prop) (ds : List NodeDoc) (P : α → List Node → Prop) : Prop where
  inv : ∀ {p a q}, m context p = .ok (a, q) → V ∧ ∃ ns, ds.mapM node context p = .ok (ns, q) ∧ P a ns
  ok : V → ∀ {p ns q}, ds.mapM node context p = .ok (ns, q) → ∃ a, m context p = .ok (a, q)

theorem mapM_nil_iff {p q : Progress} {ns : List Node} :
    ([] : List NodeDoc).mapM node context p = .ok (ns, q) ↔ ns = [] ∧ q = p := by
  rw [List.mapM_nil, pure_eq_ok_iff, Prod.mk.injEq]

theorem mapM_cons_iff {d : NodeDoc} {ds : List NodeDoc} {p q : Progress} {ns : List Node} :
    (d :: ds).mapM node context p = .ok (ns, q) ↔
      ∃ n r ms, node d context p = .ok (n, r) ∧ ds.mapM node context r = .ok (ms, q) ∧ ns = n :: ms := by
  simp only [List.mapM_cons, bind_eq_ok_iff, pure_eq_ok_iff, Prod.mk.injEq]
  constructor
  · rintro ⟨n, r, hn, ms, s, hms, rfl, rfl⟩
    exact ⟨n, r, ms, hn, hms, rfl⟩
  · rintro ⟨n, r, ms, hn, hms, rfl⟩
    exact ⟨n, r, hn, ms, q, hms, rfl, rfl⟩

theorem mapM_append_iff {ds es : List NodeDoc} {p q : Progress} {ns : List Node} :
    (ds ++ es).mapM node context p = .ok (ns, q) ↔
      ∃ ms r ls, ds.mapM node context p = .ok (ms, r) ∧ es.mapM node context r = .ok (ls, q) ∧ ns = ms ++ ls := by
  induction ds generalizing p ns with
  | nil =>
    simp only [List.nil_append, mapM_nil_iff]
    constructor
    · intro h
      exact ⟨[], p, ns, ⟨rfl, rfl⟩, h, rfl⟩
    · rintro ⟨ms, r, ls, ⟨rfl, rfl⟩, h, rfl⟩
      exact h
  | cons d ds ih =>
    simp only [List.cons_append, mapM_cons_iff, ih]
    constructor
    · rintro ⟨n, r, _, hn, ⟨ms, s, ls, hms, hls, rfl⟩, rfl⟩
      exact ⟨n :: ms, s, ls, ⟨n, r, ms, hn, hms, rfl⟩, hls, rfl⟩
    · rintro ⟨_, s, ls, ⟨n, r, ms, hn, hms, rfl⟩, hls, rfl⟩
      exact ⟨n, r, ms ++ ls, hn, ⟨ms, s, ls, hms, hls, rfl⟩, rfl⟩

namespace Gathers
variable {V W : Prop} {ds es : List NodeDoc} {P : α → List Node → Prop} {Q : β → List Node → Prop}

theorem pure {a : α} (h : P a []) : Gathers context (Pure.pure a) True [] P where
  inv hrun := by
    obtain ⟨rfl, rfl⟩ := Prod.mk.inj (pure_eq_ok_iff.mp hrun)
    exact ⟨trivial, [], mapM_nil_iff.mpr ⟨rfl, rfl⟩, h⟩
  ok _ _ _ _ hrun := by
    obtain ⟨-, rfl⟩ := mapM_nil_iff.mp hrun
    exact ⟨a, pure_eq_ok_iff.mpr rfl⟩

theorem fail {e : DocumentError} : Gathers context (Build.fail e : Build α) False ds P where
  inv hrun := nomatch hrun
  ok h := h.elim

theorem bind {m : Build α} {g : α → Build β} (hm : Gathers context m V ds P)
    (hg : ∀ a ns, P a ns → Gathers context (g a) W es fun b ms => Q b (ns ++ ms)) :
    Gathers context (m >>= g) (V ∧ W) (ds ++ es) Q where
  inv hrun := by
    obtain ⟨a, r, ha, hb⟩ := bind_eq_ok_iff.mp hrun
    obtain ⟨hV, ns, hns, hP⟩ := hm.inv ha
    obtain ⟨hW, ms, hms, hQ⟩ := (hg a ns hP).inv hb
    exact ⟨⟨hV, hW⟩, ns ++ ms, mapM_append_iff.mpr ⟨ns, r, ms, hns, hms, rfl⟩, hQ⟩
  ok hVW p ns q hrun := by
    obtain ⟨ms, r, ls, hms, hls, rfl⟩ := mapM_append_iff.mp hrun
    obtain ⟨a, ha⟩ := hm.ok hVW.1 hms
    obtain ⟨-, ms', hms', hP⟩ := hm.inv ha
    obtain ⟨b, hb⟩ := (hg a ms' hP).ok hVW.2 hls
    exact ⟨b, bind_eq_ok_iff.mpr ⟨a, r, ha, hb⟩⟩

theorem bind_pure {m : Build α} {k : α → β} (hm : Gathers context m V ds P) (hk : ∀ a ns, P a ns → Q (k a) ns) :
    Gathers context (m >>= fun a => Pure.pure (k a)) V ds Q where
  inv hrun := by
    obtain ⟨a, r, ha, hb⟩ := bind_eq_ok_iff.mp hrun
    obtain ⟨rfl, rfl⟩ := Prod.mk.inj (pure_eq_ok_iff.mp hb)
    obtain ⟨hV, ns, hns, hP⟩ := hm.inv ha
    exact ⟨hV, ns, hns, hk a ns hP⟩
  ok hV p ns q hrun := by
    obtain ⟨a, ha⟩ := hm.ok hV hrun
    exact ⟨k a, bind_eq_ok_iff.mpr ⟨a, q, ha, pure_eq_ok_iff.mpr rfl⟩⟩

theorem congr {m : Build α} (h : Gathers context m V ds P) (hV : V ↔ W) (hds : ds = es) : Gathers context m W es P := by
  obtain rfl := propext hV
  obtain rfl := hds
  exact h

end Gathers

/-! ### Fields -/

theorem read_eq_ok_iff {p q : Progress} {c : Context} :
    (read : Build Context) context p = .ok (c, q) ↔ c = context ∧ q = p := by
  show Except.ok (context, p) = .ok (c, q) ↔ _
  rw [Except.ok.injEq, Prod.mk.injEq, eq_comm, @eq_comm _ p]

theorem span_some_iff {l : List Nat} {o : Option Span} {p q : Progress} : span (some l) context p = .ok (o, q) ↔
    (∃ s, spanOf context.source l = .ok s ∧ o = some s) ∧ q = p := by
  unfold span
  simp only [bind_eq_ok_iff, read_eq_ok_iff]
  constructor
  · rintro ⟨_, _, ⟨hc, rfl⟩, h⟩
    rw [hc] at h
    cases hs : spanOf context.source l with
    | error e =>
      rw [hs] at h
      cases h
    | ok s =>
      rw [hs] at h
      obtain ⟨rfl, rfl⟩ := Prod.mk.inj (pure_eq_ok_iff.mp h)
      exact ⟨⟨s, rfl, rfl⟩, rfl⟩
  · rintro ⟨⟨s, hs, rfl⟩, rfl⟩
    exact ⟨context, q, ⟨rfl, rfl⟩, by rw [hs]; rfl⟩

theorem gathers_span (o : Option (List Nat)) : Gathers context (span o) (context.source.Admits o) []
    fun r ns => ns = [] ∧ context.source.Places false o r := by
  cases o with
  | none => exact (Gathers.pure ⟨rfl, .none⟩).congr (by simp [Source.Admits]) rfl
  | some l =>
    constructor
    · intro p a q h
      obtain ⟨⟨s, hs, rfl⟩, rfl⟩ := span_some_iff.mp h
      obtain ⟨hwritten, hframes, hfile, htransparent⟩ := spanOf_eq_ok_iff.mp hs
      refine ⟨?_, [], mapM_nil_iff.mpr ⟨rfl, rfl⟩, rfl, .some hwritten hframes hfile htransparent⟩
      rintro _ ⟨⟩
      exact ⟨s, hwritten, hframes⟩
    · intro hV p ns q h
      obtain ⟨-, rfl⟩ := mapM_nil_iff.mp h
      obtain ⟨s, hwritten, hframes⟩ := hV l rfl
      have hs : spanOf context.source l = .ok { s with file := context.source.name, transparent := false } :=
        spanOf_eq_ok_iff.mpr ⟨hwritten, ⟨hframes.1, hframes.2, hframes.3, hframes.4, hframes.5, hframes.6⟩, rfl, rfl⟩
      exact ⟨_, span_some_iff.mpr ⟨⟨_, hs, rfl⟩, rfl⟩⟩

theorem gathers_name (f : NameField) : Gathers context (name f) (context.source.Admits f.offsets) []
    fun n ns => ns = [] ∧ n.text = f.text ∧ context.source.Places false f.offsets n.span :=
  (gathers_span f.offsets).bind_pure fun _ _ h => ⟨h.1, rfl, h.2⟩

theorem gathers_requiredName (tag : Tag) (o : Option NameField) : Gathers context (requiredName tag o)
    (o.isSome ∧ context.source.Admits (o.bind (·.offsets))) []
    fun n ns => ns = [] ∧ o.map (·.text) = some n.text ∧ context.source.Places false (o.bind (·.offsets)) n.span := by
  cases o with
  | none => exact Gathers.fail.congr (by simp) rfl
  | some f =>
    have h : Gathers context (name f) _ [] _ := gathers_name f
    exact ⟨fun hrun => by simpa [eq_comm] using h.inv hrun, fun hV => h.ok (by simpa using hV)⟩

theorem gathers_optionalName (o : Option NameField) : Gathers context (optionalName o)
    (context.source.Admits (o.bind (·.offsets))) []
    fun r ns => ns = [] ∧ o.map (·.text) = r.map (·.text) ∧
      context.source.Places false (o.bind (·.offsets)) (r.bind (·.span)) := by
  cases o with
  | none => exact (Gathers.pure ⟨rfl, rfl, .none⟩).congr (by simp [Source.Admits]) rfl
  | some f =>
    exact ((gathers_name f).bind_pure fun n ns h => ⟨h.1, by simp [h.2.1], h.2.2⟩).congr (by simp) rfl

theorem gathers_mapM {γ : Type} {g : γ → Build β} {V : γ → Prop} {R : γ → β → Prop} {l : List γ}
    (h : ∀ c ∈ l, Gathers context (g c) (V c) [] fun b ns => ns = [] ∧ R c b) :
    Gathers context (l.mapM g) (∀ c ∈ l, V c) [] fun bs ns => ns = [] ∧ List.Forall₂ R l bs := by
  induction l with
  | nil => exact (Gathers.pure ⟨rfl, .nil⟩).congr (by simp) rfl
  | cons c l ih =>
    rw [List.mapM_cons]
    refine ((h c (List.mem_cons_self ..)).bind fun b ns hb =>
      (ih fun d hd => h d (List.mem_cons_of_mem _ hd)).bind_pure fun bs ms hbs => ?_).congr ?_ rfl
    · exact ⟨by rw [hb.1, hbs.1]; rfl, .cons hb.2 hbs.2⟩
    · exact (List.forall_mem_cons ..).symm

theorem gathers_modifiers (mods : List ModifierField) : Gathers context (modifiers mods)
    (∀ m ∈ mods, context.source.Admits m.offsets) []
    fun ts ns => ns = [] ∧ List.Forall₂
      (fun (m : ModifierField) (t : ModifierToken) => t.flag = m.flag ∧ context.source.Places false m.offsets t.span)
        mods ts :=
  gathers_mapM fun m _ => (gathers_span m.offsets).bind_pure fun _ _ h => ⟨h.1, rfl, h.2⟩

theorem gathers_constant {v : Option Json} (h : ∀ n, v = some (.number (.int n)) → n ≤ Json.maxWord) :
    Gathers context (constant v) (Supported v) [] fun c ns => ns = [] ∧ Denotes v c := by
  have hsome := constant?_isSome_iff h
  unfold constant
  cases hc : constant? v with
  | none => exact Gathers.fail.congr (by simpa [hc] using hsome) rfl
  | some c => exact (Gathers.pure ⟨rfl, constant?_denotes h hc⟩).congr (by simpa [hc] using hsome) rfl

/-! ### Slots -/

theorem gathers_node (d : NodeDoc) : Gathers context (node d) True [d] fun n ns => ns = [n] where
  inv hrun := ⟨trivial, _, mapM_cons_iff.mpr ⟨_, _, [], hrun, mapM_nil_iff.mpr ⟨rfl, rfl⟩, rfl⟩, rfl⟩
  ok _ p ns q hrun := by
    obtain ⟨n, r, ms, hn, hms, -⟩ := mapM_cons_iff.mp hrun
    obtain ⟨-, rfl⟩ := mapM_nil_iff.mp hms
    exact ⟨n, hn⟩

theorem gathers_required (tag : Tag) (field : String) (o : Option NodeDoc) :
    Gathers context (required tag field (o.map node)) (o.toList ≠ []) o.toList
      fun n ns => ns = [n] ∧ o.toList.length = 1 := by
  cases o with
  | none => exact Gathers.fail.congr (by simp) rfl
  | some d =>
    have h : Gathers context (node d) True [d] _ := gathers_node d
    exact ⟨fun hrun => by simpa using h.inv hrun, fun _ => h.ok trivial⟩

theorem gathers_optional (o : Option NodeDoc) : Gathers context (optional (o.map node)) True o.toList
    fun r ns => ns = r.toList ∧ o.toList.length = r.toList.length := by
  cases o with
  | none => exact .pure ⟨rfl, rfl⟩
  | some d => exact (gathers_node d).bind_pure fun n ns h => ⟨h, rfl⟩

theorem gathers_list (l : List NodeDoc) : Gathers context (list (l.map node)) True l
    fun r ns => ns = r ∧ l.length = r.length := by
  induction l with
  | nil => exact .pure ⟨rfl, rfl⟩
  | cons d l ih =>
    have hrun : list ((d :: l).map node) = (do
        let n ← node d
        let ns ← list (l.map node)
        return n :: ns) := by
      rw [List.map_cons, list, List.mapM_cons]
      rfl
    rw [hrun]
    refine ((gathers_node d).bind fun n ns hn => ih.bind_pure fun r ms hr => ?_).congr (by simp) rfl
    rw [hn, hr.1]
    exact ⟨rfl, by simp [hr.2]⟩

theorem gathers_lists (ls : List (List NodeDoc)) : Gathers context ((ls.map (·.map node)).mapM list) True ls.flatten
    fun rs ns => ns = rs.flatten ∧ ls.map List.length = rs.map List.length := by
  induction ls with
  | nil => exact .pure ⟨rfl, rfl⟩
  | cons l ls ih =>
    rw [List.map_cons, List.mapM_cons]
    refine ((gathers_list l).bind fun r ns hr => ih.bind_pure fun rs ms hrs => ?_).congr (by simp) rfl
    rw [hr.1, hrs.1]
    exact ⟨rfl, by simp [hr.2, hrs.2]⟩

/-! ### Layers -/

/-- A layer takes what its kind asks for and builds the nodes in the slots that its kind reads. -/
theorem gathers_layer {tag : Tag} (htag : tag.isDerived = false) {f : Fields NodeDoc}
    (hvalue : ∀ n, f.value = some (.number (.int n)) → n ≤ Json.maxWord) :
    Gathers context (layer tag (f.map node)) (f.Complete context.source tag) (f.below tag)
      fun k ns => k.tag = tag ∧ f.Depicts context.source k ∧ k.slots = ns := by
  unfold layer
  cases tag
  all_goals first | (cases htag; done) | skip
  -- Every layer is a chain of fields of these few forms, whatever its tag.
  all_goals
    apply Gathers.congr
    · repeat first
        | (apply Gathers.bind (gathers_modifiers f.mods); rintro _ _ ⟨rfl, hmods⟩)
        | (apply Gathers.bind (gathers_requiredName _ f.name); rintro _ _ ⟨rfl, htext, hplace⟩)
        | (apply Gathers.bind (gathers_optionalName f.qual); rintro _ _ ⟨rfl, hqual⟩)
        | (apply Gathers.bind (gathers_optionalName f.rename); rintro _ _ ⟨rfl, hrename⟩)
        | (apply Gathers.bind (gathers_constant hvalue); rintro _ _ ⟨rfl, hconstant⟩)
        | (apply Gathers.bind (gathers_required _ _ _); rintro _ _ ⟨rfl, _⟩)
        | (apply Gathers.bind (gathers_optional _); rintro _ _ ⟨rfl, _⟩)
        | (apply Gathers.bind (gathers_list _); rintro _ _ ⟨rfl, _⟩)
        | (apply Gathers.bind (gathers_lists _); rintro _ _ ⟨rfl, _⟩)
      refine .pure ⟨rfl, ⟨?_, ?_, ?_, ?_, ?_⟩, ?_⟩
      all_goals simp [Kind.tag, Tag.names, Kind.named, Fields.named, Tag.isDefinition, Kind.modifiers, Kind.value?,
        Kind.filled, Fields.slot, Kind.slots, *]
    · rw [Fields.complete_iff]
      simp only [Tag.requires, Tag.names, Tag.isDefinition, List.forall_mem_cons]
      simp only [Fields.slot, Fields.named, List.flatten_cons, List.flatten_nil, List.append_nil, List.mem_cons,
        List.not_mem_nil, reduceCtorEq, or_false, or_self, forall_const, false_implies, implies_true,
        Bool.false_eq_true, true_and, and_true, and_assoc, and_comm, and_left_comm]
    · simp [Fields.below, Tag.reads, Fields.slot]

/-! ### Nodes -/

theorem fresh_eq_ok_iff {place : Option Span} {k : Kind Node} {p q : Progress} {n : Node} :
    fresh place k context p = .ok (n, q) ↔ n = .mk (.built p.next) place k ∧ q = { p with next := p.next + 1 } := by
  show Except.ok (Node.mk (.built p.next) place k, ({ p with next := p.next + 1 } : Progress)) = .ok (n, q) ↔ _
  rw [Except.ok.injEq, Prod.mk.injEq, eq_comm, @eq_comm _ _ q]

theorem register_eq_ok_iff {id : Option String} {n : Node} {p q : Progress} {u : Unit} :
    register id n context p = .ok (u, q) ↔
      (∀ i, id = some i → p.ids.lookup i = none) ∧ q = { p with ids := (id.map (·, n)).toList ++ p.ids } := by
  cases id with
  | none =>
    have hrun : register none n context p = .ok ((), p) := rfl
    rw [hrun, Except.ok.injEq, Prod.mk.injEq]
    exact ⟨fun h => ⟨nofun, h.2.symm⟩, fun h => ⟨rfl, h.2.symm⟩⟩
  | some i =>
    have hrun : register (some i) n context p = if (p.ids.lookup i).isSome then .error (.duplicateId i)
        else .ok ((), { p with ids := (i, n) :: p.ids }) := by
      show (if (p.ids.lookup i).isSome then fail (.duplicateId i) else _ : Build Unit) context p = _
      cases p.ids.lookup i <;> rfl
    rw [hrun]
    cases hi : p.ids.lookup i with
    | some m => exact ⟨nofun, fun h => nomatch hi.symm.trans (h.1 i rfl)⟩
    | none =>
      rw [if_neg nofun, Except.ok.injEq, Prod.mk.injEq]
      refine ⟨fun h => ⟨?_, h.2.symm⟩, fun h => ⟨rfl, h.2.symm⟩⟩
      rintro _ ⟨⟩
      exact hi

/-- How a node comes about: from what its kind asks for and the nodes below it, with the next free number, under an id
that no node has yet. -/
structure Assembled (context : Context) (f : Fields NodeDoc) (p r : Progress) (n : Node) (q : Progress) : Prop where
  tag : f.tag? = some n.tag
  admits : context.source.Admits f.offsets
  complete : f.Complete context.source n.tag
  place : context.source.Places f.transparent f.offsets n.span
  depicts : f.Depicts context.source n.kind
  below : (f.below n.tag).mapM node context p = .ok (n.kind.slots, r)
  identity : n.identity = .built r.next
  unused : ∀ id, f.id = some id → r.ids.lookup id = none
  progress : q = { ids := (f.id.map (·, n)).toList ++ r.ids, next := r.next + 1 }

theorem assemble_eq {f : Fields NodeDoc} {tag : Tag} (h : f.tag? = some tag) : node (.node f) = do
    let place ← span f.offsets
    let k ← layer tag (f.map node)
    let n ← fresh (place.map fun s => if f.transparent then { s with transparent := true } else s) k
    register f.id n
    return n := by
  have htag : (Tag.ofName? (f.map node).kind).filter (!·.isDerived) = some tag := h
  rw [node_node, assemble, htag]
  rfl

theorem places_transparent {source : Source} {o : Option (List Nat)} {r : Option Span} (h : source.Places false o r)
    (transparent : Bool) : source.Places transparent o
      (r.map fun s => if transparent then { s with transparent := true } else s) := by
  cases h with
  | none => exact .none
  | some hwritten hframes hfile htransparent =>
    cases transparent with
    | false => exact .some hwritten hframes hfile htransparent
    | true => exact .some hwritten ⟨hframes.1, hframes.2, hframes.3, hframes.4, hframes.5, hframes.6⟩ hfile rfl

theorem node_inv {f : Fields NodeDoc} (hvalue : ∀ n, f.value = some (.number (.int n)) → n ≤ Json.maxWord)
    {p q : Progress} {n : Node} (h : node (.node f) context p = .ok (n, q)) : ∃ r, Assembled context f p r n q := by
  cases htag : f.tag? with
  | none =>
    have hnone : (Tag.ofName? (f.map node).kind).filter (!·.isDerived) = none := htag
    rw [node_node, assemble, hnone] at h
    cases h
  | some tag =>
    rw [assemble_eq htag] at h
    simp only [bind_eq_ok_iff, pure_eq_ok_iff, fresh_eq_ok_iff, register_eq_ok_iff, Prod.mk.injEq] at h
    obtain ⟨place, p₁, hplace, k, r, hk, _, _, ⟨rfl, rfl⟩, _, _, ⟨hunused, rfl⟩, rfl, rfl⟩ := h
    obtain ⟨hadmits, _, hnil, -, hplaces⟩ := (gathers_span _).inv hplace
    obtain ⟨-, rfl⟩ := mapM_nil_iff.mp hnil
    obtain ⟨hcomplete, ns, hns, rfl, hdepicts, rfl⟩ := (gathers_layer (Fields.tag?_eq_some_iff.mp htag).1 hvalue).inv hk
    exact ⟨r, htag, hadmits, hcomplete, places_transparent hplaces _, hdepicts, hns, rfl, hunused, rfl⟩

theorem node_of_complete {f : Fields NodeDoc} (hvalue : ∀ n, f.value = some (.number (.int n)) → n ≤ Json.maxWord)
    {tag : Tag} (htag : f.tag? = some tag) (hadmits : context.source.Admits f.offsets)
    (hcomplete : f.Complete context.source tag)
    {p r : Progress} {ns : List Node} (hbelow : (f.below tag).mapM node context p = .ok (ns, r))
    (hunused : ∀ id, f.id = some id → r.ids.lookup id = none) : ∃ n q, node (.node f) context p = .ok (n, q) := by
  obtain ⟨place, hplace⟩ := (gathers_span _).ok hadmits (mapM_nil_iff.mpr (⟨rfl, rfl⟩ : _ ∧ p = p))
  obtain ⟨k, hk⟩ := (gathers_layer (Fields.tag?_eq_some_iff.mp htag).1 hvalue).ok hcomplete hbelow
  rw [assemble_eq htag]
  simp only [bind_eq_ok_iff, pure_eq_ok_iff, fresh_eq_ok_iff, register_eq_ok_iff, Prod.mk.injEq]
  exact ⟨_, _, place, p, hplace, k, r, hk, _, _, ⟨rfl, rfl⟩, (), _, ⟨hunused, rfl⟩, rfl, rfl⟩

theorem node_ref_iff {t : String} {p q : Progress} {n : Node} :
    node (.ref t) context p = .ok (n, q) ↔ context.shared.lookup t = some n ∧ q = p := by
  rw [node, resolve]
  simp only [bind_eq_ok_iff, read_eq_ok_iff]
  constructor
  · rintro ⟨_, _, ⟨hc, rfl⟩, h⟩
    rw [hc] at h
    cases hm : context.shared.lookup t with
    | none =>
      rw [hm] at h
      cases h
    | some m =>
      rw [hm] at h
      obtain ⟨rfl, rfl⟩ := Prod.mk.inj (pure_eq_ok_iff.mp h)
      exact ⟨rfl, rfl⟩
  · rintro ⟨hn, rfl⟩
    exact ⟨context, q, ⟨rfl, rfl⟩, by rw [hn]; rfl⟩

end Build

end Document

end Reprint
