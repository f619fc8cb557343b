import Reprint.Tree.Node
/-!
The children of a node, in the order in which they stand in the text. Names and modifiers that were written
become nodes of their own. The parts of a template come in four zones: constructor parameters, early
initializers, parents, and the self type with the members.

Main statement: every child weighs less than its owner, so a walk over children ends.
-/

namespace Reprint.Node

/-! ### Derived nodes -/

/-- The node of a name, if the name was written. -/
def nameTokens (owner : Identity) (part : Part) (name : Name) : List Node :=
  match name.span with
  | some s => [mk (.part owner part) (some s) (.nameToken name.text)]
  | none => []

/-- The nodes of those modifiers that were written. -/
def modifierTokens (owner : Identity) (mods : List ModifierToken) : List Node :=
  mods.zipIdx.filterMap fun (token, i) =>
    token.span.map fun s => mk (.part owner (.modifier i)) (some s) (.modifierToken token.flag)

/-- The node of a parent that is applied to the arguments of its constructor. It reaches from the parent to
the last argument. -/
def superCall (owner : Identity) (parent : Node) (args : List Node) : Node :=
  let span := do
    let first ← parent.span
    let last ← (← args.getLast?).span
    return Span.range first.file first.start last.stop
  mk (.part owner .superCall) span (.superCall parent args)

/-! ### Zones of a template -/

/-- Whether a statement of a template is a constructor parameter. -/
def isParameter (n : Node) : Bool := n.hasModifier .paramAccessor

/-- Whether a statement of a template is an early initializer. -/
def isEarly (n : Node) : Bool := !n.isParameter && n.hasModifier .preSuper

/-- Whether a statement of a template is an ordinary member. -/
def isMember (n : Node) : Bool := !n.isParameter && !n.hasModifier .preSuper

/-- Where a node starts. -/
def start? (n : Node) : Option Nat := n.span.map (·.start)

/-- A zone in the order of the text. A zone with a synthesized node keeps the order it was given. -/
def inTextOrder (zone : List Node) : List Node :=
  if zone.all (·.span.isSome) then zone.mergeSort fun a b => a.start?.getD 0 ≤ b.start?.getD 0 else zone

/-- The parents of a template, the first one with its arguments if there are any. -/
def parentZone (owner : Identity) (parents superArgs : List Node) : List Node :=
  match parents with
  | first :: rest => if superArgs.isEmpty then first :: rest else superCall owner first superArgs :: rest
  | [] => []

/-- The four zones of a template. -/
def zones (owner : Identity) (parents superArgs : List Node) (self : Option Node) (body : List Node) :
    List (List Node) :=
  [body.filter isParameter, body.filter isEarly, parentZone owner parents superArgs,
   self.toList ++ body.filter isMember]

/-! ### Children -/

/-- The children of a node, in the order of the text. -/
def children : Node → List Node
  | mk owner _ kind =>
    match kind with
    | .package pid stats => pid :: stats
    | .classDef mods name tparams impl =>
      modifierTokens owner mods ++ nameTokens owner .name name ++ tparams ++ [impl]
    | .objectDef mods name impl => modifierTokens owner mods ++ nameTokens owner .name name ++ [impl]
    | .template parents superArgs self body =>
      (zones owner parents superArgs self body).flatMap inTextOrder
    | .valDef mods name tpt rhs =>
      modifierTokens owner mods ++ nameTokens owner .name name ++ tpt.toList ++ rhs.toList
    | .methodDef mods name tparams vparamss tpt rhs =>
      modifierTokens owner mods ++ nameTokens owner .name name ++ tparams ++ vparamss.flatten ++
        tpt.toList ++ rhs.toList
    | .typeDef mods name tparams rhs =>
      modifierTokens owner mods ++ nameTokens owner .name name ++ tparams ++ rhs.toList
    | .ident _ | .literal _ | .nameToken _ | .modifierToken _ => []
    | .thisRef qual => qual.toList.flatMap (nameTokens owner .name)
    | .select qualifier name => qualifier :: nameTokens owner .name name
    | .apply callee args | .superCall callee args => callee :: args
    | .newExpr tpt => [tpt]
    | .typed expr tpt => [expr, tpt]
    | .matchExpr selector cases => selector :: cases
    | .caseClause pat guard body => pat :: guard.toList ++ [body]
    | .bind name body => nameTokens owner .name name ++ [body]
    | .ifExpr cond thenBranch elseBranch => cond :: thenBranch :: elseBranch.toList
    | .lambda params body => params ++ [body]
    | .importDecl expr selectors => expr :: selectors
    | .importSelector name rename =>
      nameTokens owner .name name ++ rename.toList.flatMap (nameTokens owner .rename)
    | .block stats => stats
    | .selfType name tpt => nameTokens owner .name name ++ tpt.toList

/-! ### Weights -/

theorem weight_of_mem_nameTokens {owner : Identity} {part : Part} {name : Name} {c : Node}
    (h : c ∈ nameTokens owner part name) : c.weight = 1 := by
  unfold nameTokens at h
  split at h
  · rw [List.mem_singleton.mp h, weight_eq]; rfl
  · cases h

theorem weight_of_mem_modifierTokens {owner : Identity} {mods : List ModifierToken} {c : Node}
    (h : c ∈ modifierTokens owner mods) : c.weight = 1 := by
  simp only [modifierTokens, List.mem_filterMap, Option.map_eq_some_iff] at h
  obtain ⟨_, _, _, _, rfl⟩ := h
  rw [weight_eq]; rfl

theorem mem_inTextOrder {zone : List Node} {c : Node} : c ∈ inTextOrder zone ↔ c ∈ zone := by
  unfold inTextOrder
  split
  · exact List.mem_mergeSort
  · rfl

theorem le_sum_weights {l : List Node} {c : Node} (h : c ∈ l) :
    c.weight ≤ @List.sum Nat _ Zero.ofOfNat0 (l.map weight) := by
  induction l with
  | nil => cases h
  | cons a l ih =>
    rw [List.map_cons, List.sum_cons]
    rcases List.mem_cons.mp h with rfl | h
    · omega
    · have := ih h; omega

theorem weight_lt_of_mem_slots {n c : Node} (h : c ∈ n.kind.slots) : c.weight < n.weight := by
  have := le_sum_weights h
  rw [weight_eq n, Kind.rank]
  split <;> omega

theorem two_le_weight {n : Node} (h : n.tag.isDerived = false) : 2 ≤ n.weight := by
  rw [weight_eq n, Kind.rank, show n.kind.tag.isDerived = false from h]
  simp

theorem weight_superCall (owner : Identity) (parent : Node) (args : List Node) :
    (superCall owner parent args).weight =
      1 + (parent.weight + @List.sum Nat _ Zero.ofOfNat0 (args.map weight)) := by
  rw [weight_eq]; rfl

/-- A child of a template hangs in one of its slots, or it is the call of the super constructor. -/
theorem mem_children_template {owner : Identity} {span : Option Span} {parents args body : List Node}
    {self : Option Node} {c : Node} (h : c ∈ (mk owner span (.template parents args self body)).children) :
    c ∈ (Kind.template parents args self body).slots ∨
      ∃ first rest, parents = first :: rest ∧ c = superCall owner first args := by
  simp only [children, zones, List.mem_flatMap, List.mem_cons, List.not_mem_nil, or_false] at h
  obtain ⟨zone, hzone, hc⟩ := h
  have hc := mem_inTextOrder.mp hc
  simp only [Kind.slots, List.mem_append]
  rcases hzone with rfl | rfl | rfl | rfl
  · exact .inl (.inr ((List.mem_filter.mp hc).1))
  · exact .inl (.inr ((List.mem_filter.mp hc).1))
  · unfold parentZone at hc
    split at hc
    · next first rest _ =>
      split at hc
      · simp [hc]
      · rcases List.mem_cons.mp hc with rfl | hc
        · exact .inr ⟨first, rest, rfl, rfl⟩
        · exact .inl (.inl (.inl (.inl (List.mem_cons_of_mem _ hc))))
    · cases hc
  · rcases List.mem_append.mp hc with hc | hc
    · exact .inl (.inl (.inr hc))
    · exact .inl (.inr ((List.mem_filter.mp hc).1))

/-- A child of a node hangs in one of its slots, or it is a token, or the call of the super constructor. -/
theorem mem_children_cases {owner : Identity} {span : Option Span} {k : Kind Node} {c : Node}
    (h : c ∈ (mk owner span k).children) :
    c ∈ k.slots ∨ (c.weight = 1 ∧ k.tag.isDerived = false) ∨
      ∃ first rest args self body, k = .template (first :: rest) args self body ∧
        c = superCall owner first args := by
  have htok : ∀ {owner part name}, c ∈ nameTokens owner part name → c.weight = 1 := weight_of_mem_nameTokens
  have hmod : ∀ {owner mods}, c ∈ modifierTokens owner mods → c.weight = 1 := weight_of_mem_modifierTokens
  cases k with
  | template parents args self body =>
    rcases mem_children_template h with h | ⟨first, rest, rfl, rfl⟩
    · exact .inl h
    · exact .inr (.inr ⟨first, rest, args, self, body, rfl, rfl⟩)
  | _ =>
    simp only [children, List.mem_append, List.mem_cons, List.not_mem_nil, or_false, List.mem_flatMap,
      List.cons_append, Kind.slots, Kind.tag, Tag.isDerived, and_true] at h ⊢ <;> grind

/-- Children weigh less than their owner. -/
theorem weight_lt_of_mem_children {n c : Node} (h : c ∈ n.children) : c.weight < n.weight := by
  obtain ⟨owner, span, k⟩ := n
  rcases mem_children_cases h with h | ⟨h, hk⟩ | ⟨first, rest, args, self, body, rfl, rfl⟩
  · exact weight_lt_of_mem_slots (n := mk owner span k) h
  · have := two_le_weight (n := mk owner span k) hk
    omega
  · rw [weight_superCall, weight_eq (mk owner span _)]
    simp only [kind, Kind.rank, Kind.tag, Tag.isDerived, Kind.slots, List.map_append, List.sum_append_nat,
      List.map_cons, List.sum_cons, List.cons_append]
    simp
    omega

end Reprint.Node
