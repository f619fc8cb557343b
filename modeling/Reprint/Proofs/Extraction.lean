import Mathlib
import Reprint.Proofs.InStep
import Reprint.Proofs.Positions
import Reprint.Proofs.Splice
/-!
What the children of a node are made of. Some children are derived: written names and modifiers become tokens, and the
first parent of a template with the arguments of its constructor becomes a call. Main statement: with that call spelled
out, the children besides the tokens are what hangs in the slots of the node, each once. Only the arguments of a template
without parents are lost, since there is nothing to apply to them.
-/

namespace Reprint

namespace Kind

/-- The modifiers and names of a layer, slot by slot: where each one stands, if anywhere, and the layer of its token. -/
def tokens {α : Type} (k : Kind α) : List (Option Span × Kind Node) :=
  k.modifiers.map (fun m => (m.span, .modifierToken m.flag)) ++ k.nameSlots.map fun n => (n.span, .nameToken n.text)

end Kind

namespace Node

/-! ### Derived children -/

/-- Nothing that hangs below a node is derived. -/
def Grounded (n : Node) : Prop := ∀ c ∈ n.kind.slots, c.tag.isDerived = false

/-- Whether a node was made from a written name or modifier. -/
def isWritten (c : Node) : Bool := c.tag = .nameToken || c.tag = .modifierToken

/-- The children that were made from written names and modifiers. -/
def tokenChildren (n : Node) : List Node := n.children.filter isWritten

/-- What a child stands for among the slots of its owner: a token for nothing, the call of a super constructor for the
parent and the arguments, any other child for itself. -/
def spelled (c : Node) : List Node :=
  match c.kind with
  | .nameToken _ | .modifierToken _ => []
  | .superCall callee args => callee :: args
  | _ => [c]

/-- The children of a node, tokens left out and the call spelled out. -/
def spelledOut (n : Node) : List Node := n.children.flatMap spelled

/-- The arguments of a template for the constructor of a parent that it does not have. -/
def strayArguments (n : Node) : List Node :=
  match n.kind with
  | .template [] args _ _ => args
  | _ => []

section Tokens
variable {n c : Node}

theorem isWritten_of_mem_tokens (h : c ∈ n.leading ++ n.trailing) : c.isWritten = true := by
  rcases mem_tokens_cases h with ⟨_, _, _, rfl⟩ | ⟨_, -, _, _, rfl⟩
  · rfl
  · rfl

theorem spelled_of_isWritten (h : c.isWritten = true) : c.spelled = [] := by
  obtain ⟨i, s, k⟩ := c
  cases k <;> first | rfl | cases h

theorem spelled_of_not_derived (h : c.tag.isDerived = false) : c.spelled = [c] := by
  obtain ⟨i, s, k⟩ := c
  cases k <;> first | rfl | cases h

theorem not_isWritten_of_not_derived (h : c.tag.isDerived = false) : c.isWritten = false := by
  obtain ⟨i, s, k⟩ := c
  cases k <;> first | rfl | cases h

/-- Where a node stands, and its layer. -/
def placed (c : Node) : Option Span × Kind Node := (c.span, c.kind)

theorem placed_nameTokens (owner : Identity) (part : Part) (name : Name) :
    (nameTokens owner part name).map placed =
      [(name.span, (.nameToken name.text : Kind Node))].filter (·.1.isSome) := by
  unfold nameTokens
  cases name.span <;> rfl

theorem placed_modifierTokens (owner : Identity) (mods : List ModifierToken) :
    (modifierTokens owner mods).map placed =
      (mods.map fun m => (m.span, (.modifierToken m.flag : Kind Node))).filter (·.1.isSome) := by
  have hall : ∀ k, ((mods.zipIdx k).filterMap fun x => x.1.span.map fun s =>
      mk (.part owner (.modifier x.2)) (some s) (.modifierToken x.1.flag)).map placed =
      (mods.map fun m => (m.span, (.modifierToken m.flag : Kind Node))).filter (·.1.isSome) := by
    induction mods with
    | nil => exact fun _ => rfl
    | cons m mods ih =>
      intro k
      rw [List.zipIdx_cons, List.filterMap_cons, List.map_cons, List.filter_cons]
      cases hspan : m.span with
      | none => simpa [hspan] using ih (k + 1)
      | some s => simpa [hspan, placed, span, kind] using ih (k + 1)
  exact hall 0

theorem placed_tokens (n : Node) : (n.leading ++ n.trailing).map placed = n.kind.tokens.filter (·.1.isSome) := by
  have hname : ∀ {i : Identity} {part : Part} (o : Option Name), (o.toList.flatMap (nameTokens i part)).map placed =
      (o.toList.map fun n => (n.span, (.nameToken n.text : Kind Node))).filter (·.1.isSome) := by
    intro i part o
    cases o with
    | none => rfl
    | some name => simpa using placed_nameTokens i part name
  obtain ⟨i, s, k⟩ := n
  cases k with
  | importSelector name rename =>
    simp only [leading, trailing, kind, Kind.tokens, Kind.modifiers, Kind.nameSlots, List.append_nil, List.map_append,
      List.map_nil, List.nil_append, placed_nameTokens, hname]
    rw [List.map_cons, ← List.filter_append, List.singleton_append]
  | _ => simp only [leading, trailing, kind, Kind.tokens, Kind.modifiers, Kind.nameSlots, List.append_nil,
      List.map_append, List.filter_append, List.map_cons, List.map_nil, List.filter_nil, List.nil_append,
      placed_modifierTokens, placed_nameTokens, hname]

end Tokens

/-! ### Children and slots -/

section Slots
variable {n : Node} {l tokens : List Node}

theorem flatMap_spelled_slots (h : ∀ c ∈ l, c.tag.isDerived = false) : l.flatMap spelled = l := by
  calc l.flatMap spelled = l.flatMap fun c => [c] := List.flatMap_congr fun c hc => spelled_of_not_derived (h c hc)
    _ = l := List.flatMap_singleton' l

theorem flatMap_spelled_tokens (h : ∀ c ∈ tokens, c.isWritten = true) : tokens.flatMap spelled = [] :=
  List.flatMap_eq_nil_iff.mpr fun c hc => spelled_of_isWritten (h c hc)

theorem filter_isWritten_slots (h : ∀ c ∈ l, c.tag.isDerived = false) : l.filter isWritten = [] :=
  List.filter_eq_nil_iff.mpr fun c hc => by simp [not_isWritten_of_not_derived (h c hc)]

theorem spelledOut_eq_slots (h : n.Grounded) (hn : n.tag ≠ .template) : n.spelledOut = n.kind.slots := by
  have htokens := fun c (hc : c ∈ n.leading ++ n.trailing) => isWritten_of_mem_tokens hc
  rw [spelledOut, children_eq hn, List.flatMap_append, List.flatMap_append, flatMap_spelled_slots h,
    flatMap_spelled_tokens fun c hc => htokens c (List.mem_append_left _ hc),
    flatMap_spelled_tokens fun c hc => htokens c (List.mem_append_right _ hc), List.nil_append, List.append_nil]

theorem tokenChildren_eq (h : n.Grounded) (hn : n.tag ≠ .template) : n.tokenChildren = n.leading ++ n.trailing := by
  have htokens := fun c (hc : c ∈ n.leading ++ n.trailing) => isWritten_of_mem_tokens hc
  rw [tokenChildren, children_eq hn, List.filter_append, List.filter_append, filter_isWritten_slots h, List.append_nil,
    ← List.filter_append]
  exact List.filter_eq_self.mpr htokens

end Slots

/-! ### Templates -/

section Template
variable {owner : Identity} {span : Option Span} {parents args body : List Node} {self : Option Node}

theorem inTextOrder_perm (zone : List Node) : (inTextOrder zone).Perm zone := by
  unfold inTextOrder
  split
  · exact List.mergeSort_perm ..
  · rfl

theorem children_template_perm : (mk owner span (.template parents args self body)).children.Perm
    (zones owner parents args self body).flatten := by
  rw [← List.flatMap_id']
  exact List.Perm.flatMap_left _ fun zone _ => inTextOrder_perm zone

/-- Every statement of a template is in one of the zones. -/
theorem statements_perm (body : List Node) :
    (body.filter isParameter ++ (body.filter isEarly ++ body.filter isMember)).Perm body := by
  have hearly : isEarly = fun c => c.hasModifier .preSuper && !c.isParameter := funext fun _ => Bool.and_comm ..
  have hmember : isMember = fun c => !c.hasModifier .preSuper && !c.isParameter := funext fun _ => Bool.and_comm ..
  have hrest : (body.filter isEarly ++ body.filter isMember).Perm (body.filter (!·.isParameter)) := by
    rw [hearly, hmember, ← List.filter_filter, ← List.filter_filter]
    exact List.filter_append_perm (hasModifier · .preSuper) _
  exact (hrest.append_left _).trans (List.filter_append_perm isParameter body)

/-- The heads of a template, its call spelled out. -/
theorem flatMap_spelled_parentZone (h : (mk owner span (.template parents args self body)).Grounded) :
    let n := mk owner span (.template parents args self body)
    ((parentZone owner parents args).flatMap spelled ++ n.strayArguments).Perm (parents ++ args) := by
  intro n
  have hslots : ∀ c ∈ parents ++ args, c.tag.isDerived = false := fun c hc => h c (by
    simp only [kind, Kind.slots, List.mem_append] at hc ⊢
    tauto)
  cases parents with
  | nil => rfl
  | cons first rest =>
    have hrest : ∀ c ∈ first :: rest, c.tag.isDerived = false := fun c hc => hslots c (List.mem_append_left _ hc)
    cases args with
    | nil => rw [parentZone, List.isEmpty_nil, if_pos rfl, flatMap_spelled_slots hrest]; rfl
    | cons arg args =>
      have hcall : spelled (superCall owner first (arg :: args)) = first :: arg :: args := rfl
      have hstray : n.strayArguments = [] := rfl
      rw [parentZone, List.isEmpty_cons, if_neg Bool.false_ne_true, List.flatMap_cons, hcall, hstray, List.append_nil,
        flatMap_spelled_slots fun c hc => hrest c (List.mem_cons_of_mem _ hc)]
      exact List.perm_append_comm.cons first

theorem spelledOut_template_perm (h : (mk owner span (.template parents args self body)).Grounded) :
    let n := mk owner span (.template parents args self body)
    (n.spelledOut ++ n.strayArguments).Perm n.kind.slots := by
  intro n
  have hout : n.spelledOut.Perm ((zones owner parents args self body).flatten.flatMap spelled) :=
    children_template_perm.flatMap_right _
  have hheads := flatMap_spelled_parentZone h
  have hslots : ∀ l : List Node, (∀ c ∈ l, c ∈ n.kind.slots) → l.flatMap spelled = l := fun l hl =>
    flatMap_spelled_slots fun c hc => h c (hl c hc)
  have hbody : ∀ p : Node → Bool, (body.filter p).flatMap spelled = body.filter p := fun p =>
    hslots _ fun c hc => List.mem_append_right _ (List.mem_filter.mp hc).1
  have hself : self.toList.flatMap spelled = self.toList :=
    hslots _ fun c hc => List.mem_append_left _ (List.mem_append_right _ hc)
  simp only [zones, List.flatten_cons, List.flatten_nil, List.append_nil, List.flatMap_append, hbody, hself] at hout
  have hstatements := statements_perm body
  simp only [← Multiset.coe_eq_coe, ← Multiset.coe_add, n, kind, Kind.slots] at hout hheads hstatements ⊢
  rw [hout, ← hheads, ← hstatements]
  abel

/-- None of the children of a template is a token. -/
theorem tokenChildren_template (h : (mk owner span (.template parents args self body)).Grounded) :
    (mk owner span (.template parents args self body)).tokenChildren = [] := by
  refine List.filter_eq_nil_iff.mpr fun c hc => ?_
  rcases mem_children_template hc with hc | ⟨first, rest, rfl, rfl⟩
  · simp [not_isWritten_of_not_derived (h c hc)]
  · exact Bool.false_ne_true

/-! ### Order -/

/-- `out` is `zone` sorted by where its nodes start. Nodes that start at one place keep the order they were given. -/
structure StablySorted (zone out : List Node) : Prop where
  perm : out.Perm zone
  sorted : out.Pairwise fun a b => ∀ i ∈ a.start?, ∀ j ∈ b.start?, i ≤ j
  stable : ∀ k, out.filter (·.start? == some k) = zone.filter (·.start? == some k)

theorem stablySorted_inTextOrder {zone : List Node} (h : ∀ c ∈ zone, c.span.isSome) :
    StablySorted zone (inTextOrder zone) := by
  let le : Node → Node → Bool := fun a b => a.start?.getD 0 ≤ b.start?.getD 0
  have htrans : ∀ a b c, le a b → le b c → le a c := by simp only [le, decide_eq_true_eq]; omega
  have htotal : ∀ a b, (le a b || le b a) = true := by simp only [le, Bool.or_eq_true, decide_eq_true_eq]; omega
  refine ⟨inTextOrder_perm zone, ?_, fun k => ?_⟩ <;> rw [inTextOrder, if_pos (List.all_eq_true.mpr h)]
  · refine (List.pairwise_mergeSort htrans htotal zone).imp fun {a b} hle i hi j hj => ?_
    have hle : a.start?.getD 0 ≤ b.start?.getD 0 := of_decide_eq_true hle
    rwa [Option.mem_def.mp hi, Option.mem_def.mp hj] at hle
  · rw [filter_mergeSort htrans htotal]
    refine List.mergeSort_of_pairwise (List.pairwise_filter.mpr (List.pairwise_of_forall fun a b ha hb => ?_))
    simp [le, eq_of_beq ha, eq_of_beq hb]

/-- What stands for the parents of a template: the parents themselves or, where there are arguments, the first one applied
to them in a call that reaches from the parent to the last argument. -/
inductive Heads (owner : Identity) : List Node → List Node → List Node → Prop
  | plain (parents : List Node) : Heads owner parents [] parents
  | stray (args : List Node) : Heads owner [] args []
  | call {first last : Node} {s t : Span} (rest args : List Node) (hfirst : first.span = some s)
      (hlast : last.span = some t) : Heads owner (first :: rest) (args ++ [last])
        (mk (.part owner .superCall) (some (.range s.file s.start t.stop)) (.superCall first (args ++ [last])) :: rest)

theorem heads_parentZone (owner : Identity) (h : ∀ c ∈ parents ++ args, c.span.isSome) :
    Heads owner parents args (parentZone owner parents args) ∧
      ∀ c ∈ parentZone owner parents args, c.span.isSome := by
  have hparents : ∀ c ∈ parents, c.span.isSome := fun c hc => h c (List.mem_append_left _ hc)
  cases parents with
  | nil => exact ⟨.stray args, hparents⟩
  | cons first rest =>
    rcases List.eq_nil_or_concat args with rfl | ⟨args, last, rfl⟩
    · exact ⟨.plain _, hparents⟩
    · obtain ⟨s, hs⟩ := Option.isSome_iff_exists.mp (hparents first List.mem_cons_self)
      obtain ⟨t, ht⟩ := Option.isSome_iff_exists.mp (h last (by simp))
      rw [List.concat_eq_append]
      have hcall : superCall owner first (args ++ [last]) = mk (.part owner .superCall)
          (some (.range s.file s.start t.stop)) (.superCall first (args ++ [last])) := by
        simp [superCall, hs, ht]
      rw [parentZone, if_neg (by simp), hcall]
      refine ⟨.call rest args hs ht, fun c hc => ?_⟩
      rcases List.mem_cons.mp hc with rfl | hc
      · rfl
      · exact hparents c (List.mem_cons_of_mem _ hc)

theorem children_template_sorted (h : ∀ c ∈ (Kind.template parents args self body).slots, c.span.isSome) :
    ∃ params early heads members zone,
      (mk owner span (.template parents args self body)).children = params ++ early ++ heads ++ members ∧
      StablySorted (body.filter (·.hasModifier .paramAccessor)) params ∧
      StablySorted (body.filter fun c => !c.hasModifier .paramAccessor && c.hasModifier .preSuper) early ∧
      (Heads owner parents args zone ∧ StablySorted zone heads) ∧
      StablySorted (self.toList ++ body.filter fun c =>
        !c.hasModifier .paramAccessor && !c.hasModifier .preSuper) members := by
  have hbody : ∀ p : Node → Bool, ∀ c ∈ body.filter p, c.span.isSome := fun p c hc =>
    h c (List.mem_append_right _ (List.mem_filter.mp hc).1)
  have hmembers : ∀ c ∈ self.toList ++ body.filter isMember, c.span.isSome := fun c hc => by
    rcases List.mem_append.mp hc with hc | hc
    · exact h c (List.mem_append_left _ (List.mem_append_right _ hc))
    · exact hbody _ c hc
  have hparents : ∀ c ∈ parents ++ args, c.span.isSome := fun c hc =>
    h c (List.mem_append_left _ (List.mem_append_left _ hc))
  obtain ⟨hheads, hplaced⟩ := heads_parentZone owner hparents
  have hchildren : (mk owner span (.template parents args self body)).children =
      inTextOrder (body.filter isParameter) ++ inTextOrder (body.filter isEarly) ++
        inTextOrder (parentZone owner parents args) ++ inTextOrder (self.toList ++ body.filter isMember) := by
    simp [children, zones]
  exact ⟨_, _, _, _, _, hchildren, stablySorted_inTextOrder (hbody isParameter), stablySorted_inTextOrder (hbody isEarly),
    ⟨hheads, stablySorted_inTextOrder hplaced⟩, stablySorted_inTextOrder hmembers⟩

end Template

/-- The children of a node, seen from its slots: every written modifier and name has its token, in the order of the slots;
with the call of a super constructor spelled out, the other children are the nodes in the slots, each as often as it hangs
there, except that the arguments of a template without parents are lost; and the children of a template stand in four
zones, each in the order of the text if all positions are known. -/
theorem children_account_for_slots (n : Node) (h : n.Grounded) :
    n.tokenChildren.map placed = n.kind.tokens.filter (·.1.isSome) ∧
    (n.spelledOut ++ n.strayArguments).Perm n.kind.slots ∧
    (n.spelledOut.Perm n.kind.slots ↔ n.strayArguments = []) ∧
    ∀ parents args self body, n.kind = .template parents args self body → (∀ c ∈ n.kind.slots, c.span.isSome) →
      ∃ params early heads members zone, n.children = params ++ early ++ heads ++ members ∧
        StablySorted (body.filter (·.hasModifier .paramAccessor)) params ∧
        StablySorted (body.filter fun c => !c.hasModifier .paramAccessor && c.hasModifier .preSuper) early ∧
        (Heads n.identity parents args zone ∧ StablySorted zone heads) ∧
        StablySorted (self.toList ++ body.filter fun c =>
          !c.hasModifier .paramAccessor && !c.hasModifier .preSuper) members := by
  have hperm : (n.spelledOut ++ n.strayArguments).Perm n.kind.slots := by
    obtain ⟨owner, span, k⟩ := n
    cases k with
    | template => exact spelledOut_template_perm h
    | _ => rw [spelledOut_eq_slots h nofun]; exact .of_eq (List.append_nil _)
  refine ⟨?_, hperm, ⟨fun hout => ?_, fun hstray => by simpa [hstray] using hperm⟩, ?_⟩
  · obtain ⟨owner, span, k⟩ := n
    cases k with
    | template => rw [tokenChildren_template h]; rfl
    | _ => rw [tokenChildren_eq h nofun, placed_tokens]
  · -- The slots would be too many.
    have hlength := (hperm.trans hout.symm).length_eq
    rw [List.length_append] at hlength
    exact List.eq_nil_of_length_eq_zero (by omega)
  · obtain ⟨owner, span, k⟩ := n
    rintro parents args self body rfl hplaced
    exact children_template_sorted hplaced

/-- A parent `P` with the argument `x`, and in the body a member `m` ahead of a parameter `v` of the constructor. -/
def zonedTemplate : Node :=
  let parameter : Node := mk (.built 3) (some (.range "A.scala" 1 2))
    (.valDef [{ flag := .paramAccessor }] { text := "v", span := some (.range "A.scala" 1 2) } none none)
  mk (.built 4) (some (.range "A.scala" 0 20)) (.template [mk (.built 0) (some (.range "A.scala" 5 6)) (.ident "P")]
    [mk (.built 1) (some (.range "A.scala" 7 8)) (.ident "x")] none
    [mk (.built 2) (some (.range "A.scala" 12 13)) (.ident "m"), parameter])

/-- The parameter is moved ahead of the parent, and nothing is lost. -/
theorem zonedTemplate_accounted :
    zonedTemplate.Grounded ∧ zonedTemplate.tokenChildren = [] ∧ zonedTemplate.spelledOut.Perm zonedTemplate.kind.slots ∧
      ∃ params early heads members zone, zonedTemplate.children = params ++ early ++ heads ++ members ∧
        StablySorted (zonedTemplate.kind.slots.filter (·.hasModifier .paramAccessor)) params ∧
        Heads (.built 4) (zonedTemplate.kind.slots.take 1) ((zonedTemplate.kind.slots.drop 1).take 1) zone ∧
        StablySorted zone heads := by
  have hgrounded : (zonedTemplate.kind.slots.all fun c => c.tag.isDerived = false) = true := by cbv
  have hplaced : (zonedTemplate.kind.slots.all (·.span.isSome)) = true := by cbv
  simp only [List.all_eq_true, decide_eq_true_eq] at hgrounded hplaced
  obtain ⟨htokens, -, hall, horder⟩ := children_account_for_slots zonedTemplate hgrounded
  obtain ⟨params, early, heads, members, zone, hchildren, hparams, -, hheads, -⟩ := horder _ _ _ _ rfl hplaced
  exact ⟨hgrounded, List.map_eq_nil_iff.mp htokens, hall.mpr rfl, params, early, heads, members, zone, hchildren, hparams,
    hheads.1, hheads.2⟩

end Node

/-! ### Loaded trees -/

theorem Document.throughout_of_describes {source : Source} {d : NodeDoc} {n : Node}
    (h : ∀ x ∈ d.pairs n, x.1.Describes source [] x.2) : n.Throughout fun k => k.tag.isDerived = false := by
  induction n using Node.slots_induction generalizing d with
  | step n ih =>
    have hself := h _ (d.mem_pairs_self n)
    cases d with
    | ref t => cases hself
    | node f =>
      obtain ⟨hderived, -, -, hdepicts⟩ := hself
      refine .node hderived fun c hc => ?_
      obtain ⟨e, he⟩ := hdepicts.exists_beside hc
      exact ih c hc fun x hx => h x (NodeDoc.mem_pairs_node.mpr (.inr ⟨_, he, hx⟩))

namespace LoadedTree
open Node

/-- Nothing that is derived hangs below a node of a base tree, be that node itself derived or not. -/
theorem grounded_of_ofBase {source : Source} {text : Text} {base : LoadedTree} (h : ofBase source text = .ok base) :
    ∀ n ∈ base.root.preorder, n.Grounded := by
  have hbelow : ∀ n : Node, (∀ c ∈ n.kind.slots, c.Throughout fun k => k.tag.isDerived = false) →
      ∀ m ∈ n.preorder, ∀ c ∈ m.kind.slots, c.Throughout fun k => k.tag.isDerived = false := by
    intro n hn m hm
    induction n using children_induction with
    | step n ih =>
      rcases mem_preorder_iff.mp hm with rfl | ⟨d, hd, hm⟩
      · exact hn
      · refine ih d hd ?_ hm
        rcases child_cases hd with hd | hd | ⟨first, rest, args, self, body, hk, rfl⟩
        · exact fun c hc => (hn d hd).slot hc
        · rw [(isToken_of_mem_tokens hd).slots]
          exact List.forall_mem_nil _
        · -- The call takes its slots from the template.
          intro c hc
          refine hn c ?_
          rw [hk]
          simp only [superCall, kind, Kind.slots, List.mem_cons, List.mem_append] at hc ⊢
          tauto
  obtain ⟨d, -, hfaithful⟩ := ofText_faithful h
  have hroot := Document.throughout_of_describes hfaithful.describes
  exact fun n hn c hc => (hbelow base.root (fun c hc => hroot.slot hc) n hn c hc).layer

end LoadedTree

namespace Node

/-- A text, and for it the document of a template that has no parent to take its argument. -/
def orphanSource : Source := { name := "A.scala", text := ['a'] }

def orphanText : Text :=
  "[\"A.scala\",\x7b\"kind\":\"template\",\"pos\":[0,1],\"super_args\":[[\"ident\",null,[0,1],false,\"a\"]]\x7d]".toList

def orphanTree : LoadedTree where
  root := .mk (.built 1) (some (.range "A.scala" 0 1))
    (.template [] [.mk (.built 0) (some (.range "A.scala" 0 1)) (.ident "a")] none [])
  ids := []
  next := 2

/-- The template is loaded, and its argument is not among the children. -/
theorem orphan_argument_lost : LoadedTree.ofBase orphanSource orphanText = .ok orphanTree ∧ orphanTree.root.Grounded ∧
    orphanTree.root.children = [] ∧ ¬ orphanTree.root.spelledOut.Perm orphanTree.root.kind.slots := by
  have hload : LoadedTree.ofBase orphanSource orphanText = .ok orphanTree := by cbv
  have hgrounded := LoadedTree.grounded_of_ofBase hload orphanTree.root orphanTree.root.mem_preorder_self
  have hchildren : orphanTree.root.children = [] := by cbv
  refine ⟨hload, hgrounded, hchildren, fun hperm => ?_⟩
  rw [spelledOut, hchildren] at hperm
  exact Nat.zero_ne_one hperm.length_eq

end Node

end Reprint
