import Mathlib
import Reprint.Proofs.Alike
/-!
Two trees in step: layer by layer they have the same tags, places, contents and written tokens, and what hangs below
them corresponds slot by slot, except where one node was exchanged for another (`swap`). Identities do not count, so
either tree may share nodes with the other or not. Main statement: the children of two nodes in step are in step as
well, also where they are derived: name and modifier tokens, the zones of a template and the call of its super
constructor are derived again for each owner, and come out in the same order.
-/

namespace Reprint

/-! ### Lists in step -/

section Lists
variable {α : Type} {R : α → α → Prop}

theorem forall₂_of_getElem? {l k : List α} (hlen : l.length = k.length)
    (h : ∀ (i : Nat) (a b : α), l[i]? = some a → k[i]? = some b → R a b) : List.Forall₂ R l k :=
  List.forall₂_of_length_eq_of_get hlen fun i hi hk =>
    h i _ _ (List.getElem?_eq_getElem hi) (List.getElem?_eq_getElem hk)

theorem getElem?_of_forall₂ {l k : List α} (h : List.Forall₂ R l k) {i : Nat} {a b : α} (ha : l[i]? = some a)
    (hb : k[i]? = some b) : R a b := by
  obtain ⟨hi, rfl⟩ := List.getElem?_eq_some_iff.mp ha
  obtain ⟨hk, rfl⟩ := List.getElem?_eq_some_iff.mp hb
  exact h.get hi hk

theorem forall₂_append_inv {l₁ l₂ k₁ k₂ : List α} (hlen : l₁.length = k₁.length)
    (h : List.Forall₂ R (l₁ ++ l₂) (k₁ ++ k₂)) : List.Forall₂ R l₁ k₁ ∧ List.Forall₂ R l₂ k₂ := by
  have htake := List.forall₂_take_append _ _ _ h
  have hdrop := List.forall₂_drop_append _ _ _ h
  rw [← hlen, List.take_left] at htake
  rw [← hlen, List.drop_left] at hdrop
  exact ⟨htake, hdrop⟩

/-- Lists in step stay so when they are sorted by keys that are in step. -/
theorem forall₂_mergeSort {le : α → α → Bool} {l k : List α} (h : List.Forall₂ R l k)
    (hle : ∀ a a' b b', R a b → R a' b' → le a a' = le b b') :
    List.Forall₂ R (l.mergeSort le) (k.mergeSort le) := by
  have hlen := h.length_eq
  have hpairs : ∀ x ∈ l.zip k, R x.1 x.2 := fun _ hx => (List.forall₂_iff_zip.mp h).2 hx
  have hl : l = (l.zip k).map Prod.fst := (List.map_fst_zip (Nat.le_of_eq hlen)).symm
  have hk : k = (l.zip k).map Prod.snd := (List.map_snd_zip (Nat.le_of_eq hlen.symm)).symm
  -- Sorting the pairs by their first halves sorts both lists.
  have hfst : ((l.zip k).mergeSort fun x y => le x.1 y.1).map Prod.fst = l.mergeSort le := by
    rw [List.map_mergeSort (f := Prod.fst) (s := le) fun _ _ _ _ => rfl, ← hl]
  have hsnd : ((l.zip k).mergeSort fun x y => le x.1 y.1).map Prod.snd = k.mergeSort le := by
    rw [List.map_mergeSort (s := le) fun x hx y hy => hle _ _ _ _ (hpairs x hx) (hpairs y hy), ← hk]
  rw [← hfst, ← hsnd, List.forall₂_map_left_iff, List.forall₂_map_right_iff, List.forall₂_same]
  exact fun x hx => hpairs x (List.mem_mergeSort.mp hx)

end Lists

/-- The same names and flags, and the same value, of which the two zeros are one. -/
structure Content.Same (c d : Content) : Prop where
  names : c.names = d.names
  flags : c.flags = d.flags
  value : ∀ x y, c.value = some x → d.value = some y → x.same y

/-- The names of a layer, slot by slot, that become tokens where they are written. -/
def Kind.nameSlots {α : Type} : Kind α → List Name
  | classDef _ name .. | objectDef _ name _ | valDef _ name .. | methodDef _ name .. | typeDef _ name .. => [name]
  | select _ name | bind name _ | selfType name _ => [name]
  | thisRef qual => qual.toList
  | importSelector name rename => name :: rename.toList
  | _ => []

namespace Node

/-! ### Layers -/

/-- Two nodes that agree in everything but their identities and what hangs below them. -/
structure SameLayer (a b : Node) : Prop where
  slot : a.sameSlot b
  content : a.kind.content.Same b.kind.content
  leading : List.Forall₂ (fun x y : Node => x.sameShape y) a.leading b.leading
  trailing : List.Forall₂ (fun x y : Node => x.sameShape y) a.trailing b.trailing
  grouping : a.kind.grouping = b.kind.grouping

section Layers
variable {a b : Node}

theorem isDefinition_content {n : Node} (h : n.isDefinition = true) :
    n.kind.content = { names := [n.name?], flags := n.flags } := by
  obtain ⟨i, s, k⟩ := n
  cases k <;> first | rfl | cases h

theorem modifiers_of_not_isDefinition {n : Node} (h : n.isDefinition = false) : n.modifiers = [] := by
  obtain ⟨i, s, k⟩ := n
  cases k <;> first | rfl | cases h

/-- The name of a node is the first one of its content, except that `this` has a qualifier and no name. -/
theorem name?_eq (n : Node) : n.name? = if n.tag = .thisRef then none else n.kind.content.names.head?.join := by
  obtain ⟨i, s, k⟩ := n
  cases k <;> rfl

theorem selected_eq (n : Node) : n.selected =
    (n.name?.getD "", if n.tag = .importSelector then n.kind.content.names[1]?.join else none) := by
  obtain ⟨i, s, k⟩ := n
  cases k <;> rfl

theorem mem_flags {n : Node} {m : Modifier} : m ∈ n.flags ↔ n.hasModifier m = true := by
  have hall : m ∈ Modifier.all := by cases m <;> decide
  rw [flags, List.mem_filter]
  exact and_iff_right hall

theorem hasModifier_of_not_isDefinition {n : Node} (h : n.isDefinition = false) (m : Modifier) :
    n.hasModifier m = false := by
  rw [hasModifier, modifiers_of_not_isDefinition h]
  rfl

theorem SameLayer.tag_eq (h : SameLayer a b) : a.tag = b.tag := (sameSlot_iff.mp h.slot).1

theorem SameLayer.isDefinition_eq (h : SameLayer a b) : a.isDefinition = b.isDefinition := by
  rw [isDefinition, isDefinition, h.tag_eq]

theorem SameLayer.name?_eq (h : SameLayer a b) : a.name? = b.name? := by
  rw [Node.name?_eq, Node.name?_eq, h.tag_eq, h.content.names]

theorem SameLayer.selected_eq (h : SameLayer a b) : a.selected = b.selected := by
  rw [Node.selected_eq, Node.selected_eq, h.name?_eq, h.tag_eq, h.content.names]

theorem SameLayer.flags_eq (h : SameLayer a b) (ha : a.isDefinition = true) : a.flags = b.flags := by
  have hflags := h.content.flags
  rwa [isDefinition_content ha, isDefinition_content (h.isDefinition_eq ▸ ha)] at hflags

theorem SameLayer.hasModifier_eq (h : SameLayer a b) (m : Modifier) : a.hasModifier m = b.hasModifier m := by
  cases ha : a.isDefinition with
  | false =>
    rw [hasModifier_of_not_isDefinition ha, hasModifier_of_not_isDefinition (h.isDefinition_eq ▸ ha)]
  | true => rw [Bool.eq_iff_iff, ← mem_flags, ← mem_flags, h.flags_eq ha]

end Layers

/-! ### Trees in step -/

/-- The same layers here and in every slot below, down to nodes that were exchanged. -/
inductive InStep (swap : Node → Node → Prop) : Node → Node → Prop where
  | layer {a b : Node} : SameLayer a b →
      (∀ (i : Nat) (c d : Node), a.kind.slots[i]? = some c → b.kind.slots[i]? = some d → InStep swap c d) →
      InStep swap a b
  | swap {a b : Node} : swap a b → InStep swap a b

/-- What may be exchanged: nodes that define nothing, for nodes in the same slot. -/
def Swappable (swap : Node → Node → Prop) : Prop := ∀ a b, swap a b → a.sameSlot b ∧ a.isDefinition = false

section InStep
variable {swap : Node → Node → Prop} {a b : Node}

theorem InStep.slot (hs : Swappable swap) (h : InStep swap a b) : a.sameSlot b := by
  cases h with
  | layer hlayer _ => exact hlayer.slot
  | swap h => exact (hs a b h).1

theorem InStep.span_isSome_eq (hs : Swappable swap) (h : InStep swap a b) : a.span.isSome = b.span.isSome := by
  obtain ⟨-, ⟨s, t, ha, hb, -⟩ | ⟨ha, hb⟩⟩ := sameSlot_iff.mp (h.slot hs)
  · rw [ha, hb, Option.isSome_some, Option.isSome_some]
  · rw [ha, hb]

theorem InStep.start?_eq (hs : Swappable swap) (h : InStep swap a b) : a.start? = b.start? := by
  obtain ⟨-, ⟨s, t, hs, ht, hst⟩ | ⟨hs, ht⟩⟩ := sameSlot_iff.mp (h.slot hs)
  · rw [start?, start?, hs, ht, Option.map_some, Option.map_some, (Span.sameRange_iff.mp hst).2.1]
  · rw [start?, start?, hs, ht]

theorem InStep.hasModifier_eq (hs : Swappable swap) (h : InStep swap a b) (m : Modifier) :
    a.hasModifier m = b.hasModifier m := by
  cases h with
  | layer hlayer _ => exact hlayer.hasModifier_eq m
  | swap h =>
    obtain ⟨hslot, hdef⟩ := hs a b h
    have hdef' : b.isDefinition = false := by rwa [isDefinition, ← (sameSlot_iff.mp hslot).1]
    rw [hasModifier_of_not_isDefinition hdef, hasModifier_of_not_isDefinition hdef']

theorem forall₂_slots (h : SameLayer a b)
    (hslots : ∀ (i : Nat) (c d : Node), a.kind.slots[i]? = some c → b.kind.slots[i]? = some d → InStep swap c d) :
    List.Forall₂ (InStep swap) a.kind.slots b.kind.slots :=
  forall₂_of_getElem? (by rw [Kind.length_slots, Kind.length_slots, h.grouping]) hslots

/-! ### Tokens -/

/-- A token has nothing below it, and no tokens of its own. -/
structure IsToken (n : Node) : Prop where
  slots : n.kind.slots = []
  grouping : n.kind.grouping = []
  leading : n.leading = []
  trailing : n.trailing = []
  zero : n.kind.content.zero? = none
  value : n.kind.content.value = none

theorem mem_nameTokens_inv {owner : Identity} {part : Part} {name : Name} {n : Node} (h : n ∈ nameTokens owner part name) :
    ∃ s, n = mk (.part owner part) (some s) (.nameToken name.text) := by
  unfold nameTokens at h
  split at h
  · next s _ => exact ⟨s, List.mem_singleton.mp h⟩
  · cases h

/-- A token was made from a modifier or from a name. -/
theorem mem_tokens_cases {owner n : Node} (h : n ∈ owner.leading ++ owner.trailing) :
    (∃ part s flag, n = mk (.part owner.identity part) (some s) (.modifierToken flag)) ∨
      ∃ name ∈ owner.kind.nameSlots, ∃ part s, n = mk (.part owner.identity part) (some s) (.nameToken name.text) := by
  have hslots : n ∈ modifierTokens owner.identity owner.modifiers ∨ ∃ name ∈ owner.kind.nameSlots,
      n ∈ nameTokens owner.identity .name name ∨ n ∈ nameTokens owner.identity .rename name := by
    obtain ⟨i, s, k⟩ := owner
    cases k <;> simp only [leading, trailing, identity, kind, Kind.nameSlots, modifiers, Kind.modifiers, List.mem_append,
      List.mem_flatMap, List.not_mem_nil, List.mem_cons, or_false, false_or] at h ⊢ <;> grind
  rcases hslots with hmod | ⟨name, hname, hmem | hmem⟩
  · simp only [modifierTokens, List.mem_filterMap, Option.map_eq_some_iff] at hmod
    obtain ⟨x, -, s, -, rfl⟩ := hmod
    exact .inl ⟨_, s, _, rfl⟩
  · exact .inr ⟨name, hname, _, mem_nameTokens_inv hmem⟩
  · exact .inr ⟨name, hname, _, mem_nameTokens_inv hmem⟩

theorem isToken_of_mem_tokens {n t : Node} (h : t ∈ n.leading ++ n.trailing) : IsToken t := by
  rcases mem_tokens_cases h with ⟨_, _, _, rfl⟩ | ⟨_, -, _, _, rfl⟩
  · exact ⟨rfl, rfl, rfl, rfl, rfl, rfl⟩
  · exact ⟨rfl, rfl, rfl, rfl, rfl, rfl⟩

/-- The children of a node are what hangs below it, its tokens and the call of the super constructor. -/
theorem child_cases {n c : Node} (h : c ∈ n.children) : c ∈ n.kind.slots ∨ c ∈ n.leading ++ n.trailing ∨
    ∃ first rest args self body, n.kind = .template (first :: rest) args self body ∧
      c = superCall n.identity first args := by
  by_cases htag : n.tag = .template
  · obtain ⟨owner, span, k⟩ := n
    cases k with
    | template parents args self body =>
      rcases mem_children_template h with h | ⟨first, rest, rfl, rfl⟩
      · exact .inl h
      · exact .inr (.inr ⟨first, rest, args, self, body, rfl, rfl⟩)
    | _ => cases htag
  · rw [children_eq htag, List.append_assoc, List.mem_append, List.mem_append] at h
    rw [List.mem_append]
    rcases h with h | h | h
    · exact .inr (.inl (.inl h))
    · exact .inl h
    · exact .inr (.inl (.inr h))

theorem IsToken.inStep (ha : IsToken a) (hb : IsToken b) (h : a.sameShape b) : InStep swap a b := by
  obtain ⟨hslot, hdiffers⟩ := Bool.and_eq_true_iff.mp h
  have hcontent := content_eq_of_not_differs (by simpa using hdiffers) (by rw [ha.zero, hb.zero])
  refine .layer ⟨hslot, ⟨by rw [hcontent], by rw [hcontent], ?_⟩, ?_, ?_, by rw [ha.grouping, hb.grouping]⟩ ?_
  · intro x y hx
    rw [ha.value] at hx
    cases hx
  · rw [ha.leading, hb.leading]
    exact .nil
  · rw [ha.trailing, hb.trailing]
    exact .nil
  · intro i c d hc
    rw [ha.slots] at hc
    cases hc

theorem forall₂_tokens {l k : List Node} (h : List.Forall₂ (fun x y : Node => x.sameShape y) l k)
    (hl : ∀ x ∈ l, IsToken x) (hk : ∀ y ∈ k, IsToken y) : List.Forall₂ (InStep swap) l k := by
  induction h with
  | nil => exact .nil
  | cons hxy _ ih =>
    exact .cons ((hl _ (List.mem_cons_self ..)).inStep (hk _ (List.mem_cons_self ..)) hxy)
      (ih (fun x hx => hl x (List.mem_cons_of_mem _ hx)) fun y hy => hk y (List.mem_cons_of_mem _ hy))

/-! ### Templates -/

theorem forall₂_inTextOrder (hs : Swappable swap) {l k : List Node} (h : List.Forall₂ (InStep swap) l k) :
    List.Forall₂ (InStep swap) (inTextOrder l) (inTextOrder k) := by
  have hplaced : l.all (·.span.isSome) = k.all (·.span.isSome) := by
    induction h with
    | nil => rfl
    | cons hxy _ ih => rw [List.all_cons, List.all_cons, hxy.span_isSome_eq hs, ih]
  unfold inTextOrder
  rw [hplaced]
  split
  · exact forall₂_mergeSort h fun a a' b b' hab hab' => by rw [hab.start?_eq hs, hab'.start?_eq hs]
  · exact h

theorem forall₂_filter (hs : Swappable swap) {p : Node → Bool} {l k : List Node} (h : List.Forall₂ (InStep swap) l k)
    (hp : ∀ x y, (∀ m, x.hasModifier m = y.hasModifier m) → p x = p y) :
    List.Forall₂ (InStep swap) (l.filter p) (k.filter p) :=
  List.rel_filter (fun x y hxy => Bool.eq_iff_iff.mp (hp x y (hxy.hasModifier_eq hs))) h

theorem span_superCall (i : Identity) (first : Node) (args : List Node) : (superCall i first args).span =
    first.span.bind fun s => (args.getLast?.bind (·.span)).map fun t => .range s.file s.start t.stop := by
  show (first.span.bind fun s => args.getLast?.bind fun last => last.span.bind fun t =>
    some (Span.range s.file s.start t.stop)) = _
  cases first.span with
  | none => rfl
  | some s =>
    cases args.getLast? with
    | none => rfl
    | some last => cases h : last.span <;> simp [h]

theorem superCall_sameSlot {first first' : Node} {args args' : List Node} {i j : Identity}
    (hfirst : first.sameSlot first') (hargs : List.Forall₂ (fun x y : Node => x.sameSlot y) args args') :
    (superCall i first args).sameSlot (superCall j first' args') := by
  have hspan : ∀ {x y : Node}, x.sameSlot y → (x.span = none ∧ y.span = none) ∨
      ∃ s t, x.span = some s ∧ y.span = some t ∧ s.sameRange t := fun h =>
    (sameSlot_iff.mp h).2.symm.imp_right id
  refine sameSlot_iff.mpr ⟨rfl, ?_⟩
  rw [span_superCall, span_superCall]
  rcases hspan hfirst with ⟨hx, hy⟩ | ⟨s, t, hx, hy, hst⟩
  · rw [hx, hy]
    exact .inr ⟨rfl, rfl⟩
  · rw [hx, hy, ← List.head?_reverse, ← List.head?_reverse]
    have hlast := List.forall₂_reverse_iff.mpr hargs
    generalize args.reverse = l at hlast
    generalize args'.reverse = l' at hlast
    cases hlast with
    | nil => exact .inr ⟨rfl, rfl⟩
    | cons hlast _ =>
      rcases hspan hlast with ⟨hx, hy⟩ | ⟨s', t', hx, hy, hst'⟩
      · exact .inr ⟨by simp [hx], by simp [hy]⟩
      · refine .inl ⟨.range s.file s.start s'.stop, .range t.file t.start t'.stop, by simp [hx], by simp [hy], ?_⟩
        have h := Span.sameRange_iff.mp hst
        have h' := Span.sameRange_iff.mp hst'
        exact Span.sameRange_iff.mpr ⟨h.1, h.2.1, h.2.1, h'.2.2.2⟩

theorem superCall_inStep (hs : Swappable swap) {first first' : Node} {args args' : List Node} {i j : Identity}
    (hfirst : InStep swap first first') (hargs : List.Forall₂ (InStep swap) args args') :
    InStep swap (superCall i first args) (superCall j first' args') := by
  have hslot := superCall_sameSlot (i := i) (j := j) (hfirst.slot hs) (hargs.imp fun _ _ h => h.slot hs)
  refine .layer ⟨hslot, ⟨rfl, rfl, fun x y hx => (by cases hx)⟩, .nil, .nil, ?_⟩ ?_
  · show [1, args.length] = [1, args'.length]
    rw [hargs.length_eq]
  · intro n c d hc hd
    exact getElem?_of_forall₂ (List.Forall₂.cons hfirst hargs) hc hd

theorem forall₂_parentZone (hs : Swappable swap) {parents parents' args args' : List Node} {i j : Identity}
    (hparents : List.Forall₂ (InStep swap) parents parents') (hargs : List.Forall₂ (InStep swap) args args') :
    List.Forall₂ (InStep swap) (parentZone i parents args) (parentZone j parents' args') := by
  cases hparents with
  | nil => exact .nil
  | cons hfirst hrest =>
    cases hargs with
    | nil => exact .cons hfirst hrest
    | cons harg hargs => exact .cons (superCall_inStep hs hfirst (.cons harg hargs)) hrest

/-- The zones of two templates in step are in step. -/
theorem forall₂_template (hs : Swappable swap) {i j : Identity} {s t : Option Span}
    {parents parents' args args' body body' : List Node} {self self' : Option Node}
    (hparents : List.Forall₂ (InStep swap) parents parents') (hargs : List.Forall₂ (InStep swap) args args')
    (hself : List.Forall₂ (InStep swap) self.toList self'.toList) (hbody : List.Forall₂ (InStep swap) body body') :
    List.Forall₂ (InStep swap) (mk i s (.template parents args self body)).children
      (mk j t (.template parents' args' self' body')).children := by
  have hparams : List.Forall₂ (InStep swap) (body.filter isParameter) (body'.filter isParameter) :=
    forall₂_filter hs hbody fun x y h => by simp only [isParameter, h]
  have hearly : List.Forall₂ (InStep swap) (body.filter isEarly) (body'.filter isEarly) :=
    forall₂_filter hs hbody fun x y h => by simp only [isEarly, isParameter, h]
  have hmembers : List.Forall₂ (InStep swap) (body.filter isMember) (body'.filter isMember) :=
    forall₂_filter hs hbody fun x y h => by simp only [isMember, isParameter, h]
  simp only [children, zones, List.flatMap_cons, List.flatMap_nil]
  refine List.rel_append (forall₂_inTextOrder hs hparams) (List.rel_append (forall₂_inTextOrder hs hearly)
    (List.rel_append (forall₂_inTextOrder hs (forall₂_parentZone hs hparents hargs))
      (List.rel_append (forall₂_inTextOrder hs (List.rel_append hself hmembers)) .nil)))

/-! ### Children -/

/-- The children of nodes in step are in step. -/
theorem forall₂_children (hs : Swappable swap) (h : SameLayer a b)
    (hslots : ∀ (i : Nat) (c d : Node), a.kind.slots[i]? = some c → b.kind.slots[i]? = some d → InStep swap c d) :
    List.Forall₂ (InStep swap) a.children b.children := by
  have hall := forall₂_slots h hslots
  by_cases ht : b.tag = .template
  · have ht' := h.tag_eq.trans ht
    have hgroup := h.grouping
    obtain ⟨i, s, k⟩ := a
    obtain ⟨j, t, l⟩ := b
    cases k <;> first | (cases ht'; done) | skip
    cases l <;> first | (cases ht; done) | skip
    simp only [kind, Kind.grouping, List.cons.injEq, and_true] at hgroup
    obtain ⟨hparents, hargs, hself, -⟩ := hgroup
    simp only [kind, Kind.slots, List.append_assoc] at hall
    obtain ⟨hparents, hall⟩ := forall₂_append_inv hparents hall
    obtain ⟨hargs, hall⟩ := forall₂_append_inv hargs hall
    obtain ⟨hself, hbody⟩ := forall₂_append_inv hself hall
    exact forall₂_template hs hparents hargs hself hbody
  · rw [children_eq ht, children_eq (h.tag_eq ▸ ht)]
    exact List.rel_append (List.rel_append
      (forall₂_tokens h.leading (fun x hx => isToken_of_mem_tokens (List.mem_append_left _ hx)) fun y hy =>
        isToken_of_mem_tokens (List.mem_append_left _ hy)) hall)
      (forall₂_tokens h.trailing (fun x hx => isToken_of_mem_tokens (List.mem_append_right _ hx)) fun y hy =>
        isToken_of_mem_tokens (List.mem_append_right _ hy))

/-! ### Agreement -/

/-- Nodes with the same layer have the same content, as long as nothing that an import selects was exchanged. -/
theorem SameLayer.not_differs (h : SameLayer a b)
    (hselected : a.tag = .importDecl → a.kind.slots.tail.map selected = b.kind.slots.tail.map selected) :
    a.contentDiffers b = false := by
  have htag := h.tag_eq
  have hselected' := h.selected_eq
  obtain ⟨hnames, hflags, hvalue⟩ := h.content
  unfold contentDiffers
  split
  case h_11 =>
    have hdef : a.isDefinition = true → a.name? = b.name? ∧ a.flags = b.flags := fun ha => ⟨h.name?_eq, h.flags_eq ha⟩
    cases ha : a.isDefinition <;> simp_all
  all_goals simp_all [tag, Kind.content, Kind.tag, Kind.slots]

theorem selected_eq_of_forall₂ {l k : List Node} (h : List.Forall₂ (InStep swap) l k)
    (hswap : ∀ x ∈ l, ∀ y, swap x y → x.selected = y.selected) : l.map selected = k.map selected := by
  induction h with
  | nil => rfl
  | @cons x y l k hxy _ ih =>
    have hhead : x.selected = y.selected := by
      cases hxy with
      | layer hlayer _ => exact hlayer.selected_eq
      | swap hxy => exact hswap x (List.mem_cons_self ..) y hxy
    rw [List.map_cons, List.map_cons, hhead, ih fun x hx => hswap x (List.mem_cons_of_mem _ hx)]

/-- Nodes in step agree, unless they were exchanged, or something that an import selects was. -/
theorem agrees_of_sameLayer (hs : Swappable swap) (h : SameLayer a b)
    (hslots : ∀ (i : Nat) (c d : Node), a.kind.slots[i]? = some c → b.kind.slots[i]? = some d → InStep swap c d)
    (hselectors : a.tag = .importDecl → ∀ x ∈ a.kind.slots.tail, ∀ y, swap x y → x.selected = y.selected) :
    a.Agrees b := by
  have hchildren := forall₂_children hs h hslots
  refine ⟨h.not_differs fun htag => selected_eq_of_forall₂ ?_ (hselectors htag), ?_⟩
  · rw [← List.drop_one, ← List.drop_one]
    exact List.forall₂_drop 1 (forall₂_slots h hslots)
  · exact childrenChanged_eq_false_iff.mpr ⟨hchildren.length_eq, fun i c d hc hd =>
      (getElem?_of_forall₂ hchildren hc hd).slot hs⟩

end InStep

/-! ### Deciding -/

/-- Whether two lists of tokens have the same shapes in the same order. -/
def sameTokens (l k : List Node) : Bool := l.length == k.length && (l.zip k).all fun x => x.1.sameShape x.2

theorem sameTokens_iff {l k : List Node} :
    sameTokens l k ↔ List.Forall₂ (fun x y : Node => x.sameShape y) l k := by
  simp only [sameTokens, Bool.and_eq_true, beq_iff_eq, List.all_eq_true, List.forall₂_iff_zip, Prod.forall]

/-- Decides whether two nodes have the same layer. -/
def hasSameLayer (a b : Node) : Bool :=
  a.sameSlot b && a.kind.content.names == b.kind.content.names && a.kind.content.flags == b.kind.content.flags &&
    a.kind.content.value.all (fun x => b.kind.content.value.all x.same) && sameTokens a.leading b.leading &&
    sameTokens a.trailing b.trailing && a.kind.grouping == b.kind.grouping

theorem sameLayer_of_hasSameLayer {a b : Node} (h : a.hasSameLayer b) : SameLayer a b := by
  simp only [hasSameLayer, Bool.and_eq_true, beq_iff_eq, sameTokens_iff, Option.all_eq_true, and_assoc] at h
  obtain ⟨hslot, hnames, hflags, hvalue, hleading, htrailing, hgroup⟩ := h
  exact ⟨hslot, ⟨hnames, hflags, fun x y hx hy => hvalue x hx y hy⟩, hleading, htrailing, hgroup⟩

/-- Decides whether two trees are in step, where `swap` decides which nodes were exchanged. -/
def isInStep (swap : Node → Node → Bool) (a b : Node) : Bool :=
  swap a b || (a.hasSameLayer b && (a.kind.slots.attach.zip b.kind.slots).all fun x => isInStep swap x.1.1 x.2)
termination_by a.weight
decreasing_by exact weight_lt_of_mem_slots x.1.2

theorem inStep_of_isInStep {swap : Node → Node → Bool} {P : Node → Node → Prop} (hP : ∀ a b, swap a b → P a b)
    {a b : Node} (h : isInStep swap a b) : InStep P a b := by
  induction a using slots_induction generalizing b with
  | step a ih =>
    rw [isInStep, Bool.or_eq_true, Bool.and_eq_true, List.all_eq_true] at h
    rcases h with h | ⟨hlayer, hslots⟩
    · exact .swap (hP a b h)
    · refine .layer (sameLayer_of_hasSameLayer hlayer) fun i c d hc hd => ?_
      have hmem := List.mem_of_getElem? hc
      refine ih c hmem (hslots (⟨c, hmem⟩, d) (List.mem_of_getElem? (List.getElem?_zip_eq_some.mpr ⟨?_, hd⟩)))
      obtain ⟨hi, rfl⟩ := List.getElem?_eq_some_iff.mp hc
      rw [List.getElem?_eq_getElem (by rwa [List.length_attach]), List.getElem_attach]

end Node

end Reprint
